/-
The floppy driver (kernel/blk_drv/floppy.c).

* `floppyType`, `FloppyMemory` — the types, and what lies where the table has no entry;
* `Fd` — the driver with its queue, the variables that a command is made from, and what it waits
  for: an interrupt or timers;
* `Fd.step` — interrupts and timers, with the outcomes of the controller;
* `Fd.driven` — runs in which a request comes to an empty queue only when nothing is waited for:
  a command is made for the current request and moves two sectors, and a request that ends well
  was moved by such a command.

Design notes: the motors, the selection of a drive and the parameters of the controller are left
out; a timer of no ticks is one that comes at once.
-/
import Linux012.HardDisk

namespace Blk

/-- `struct floppy_struct`, without what no sector depends on. -/
structure FloppyStruct where
  size : ℕ
  sect : ℕ
  head : ℕ
  stretch : ℕ

/-- `floppy_type`. -/
def floppyType : List FloppyStruct :=
  [⟨0, 0, 0, 0⟩, ⟨720, 9, 2, 0⟩, ⟨2400, 15, 2, 0⟩, ⟨720, 9, 2, 1⟩, ⟨1440, 9, 2, 0⟩, ⟨720, 9, 2, 1⟩,
    ⟨1440, 9, 2, 0⟩, ⟨2880, 18, 2, 0⟩]

/-- What lies behind the table, and where the buffer for DMA is. -/
structure FloppyMemory where
  behind : ℕ → FloppyStruct
  tmpFloppyArea : ℕ

/-- What an index to the table finds. -/
def FloppyMemory.entry (m : FloppyMemory) (i : ℕ) : FloppyStruct :=
  floppyType[i]?.getD (m.behind i)

/-- What `do_floppy` points to. -/
inductive FdHandler where
  | seekInterrupt
  | rwInterrupt
  | recalInterrupt
  | resetInterrupt
  deriving DecidableEq

inductive FdTimer where
  | floppyOnInterrupt
  | transfer
  deriving DecidableEq

/-- The driver. -/
structure Fd where
  queue : List Job
  /-- the requests that have ended, with `uptodate` (not in the source) -/
  ended : List (Job × Bool)
  /-- the entries of the table that were read, and for which request (not in the source) -/
  looked : List (DriverRequest × ℕ)
  reset : Bool
  recalibrate : Bool
  seek : Bool
  floppy : ℕ
  currentDrive : ℕ
  sector : ℕ
  head : ℕ
  track : ℕ
  seekTrack : ℕ
  currentTrack : ℕ
  /-- `command` -/
  write : Bool
  /-- the memory that the DMA channel was set to -/
  addr : ℕ
  /-- the buffer whose bytes a write finds there, in place or as a copy -/
  copied : ℕ
  doFloppy : Option FdHandler
  timers : List FdTimer
  /-- `CURRENT` was NULL, and was read, or a division was by zero -/
  fault : Bool
  deriving DecidableEq

namespace Fd

variable (m : FloppyMemory)

/-- `end_request`, of the current request. -/
def endRequest (s : Fd) (uptodate : Bool) : Fd :=
  match s.queue with
  | [] => { s with fault := true }
  | job :: queue => { s with queue := queue, ended := s.ended ++ [(job, uptodate)] }

/-- `CURRENT->errors++`, and `end_request(0)` beyond `MAX_ERRORS`. -/
def countError (s : Fd) : Fd :=
  match s.queue with
  | [] => { s with fault := true }
  | job :: queue =>
    if 8 < job.now.errors + 1 then
      { s with queue := queue, ended := s.ended ++ [(job.failed, false)] }
    else { s with queue := job.failed :: queue }

/-- `bad_flp_intr`. -/
def badFlpIntr (s : Fd) : Fd :=
  match s.countError.queue with
  | [] => { s.countError with fault := true }
  | job :: _ =>
    if 8 / 2 < job.now.errors then { s.countError with reset := true }
    else { s.countError with recalibrate := true }

/-- `reset_floppy`. -/
def resetFloppy (s : Fd) : Fd :=
  { s with reset := false, recalibrate := true, doFloppy := some .resetInterrupt }

/-- `recalibrate_floppy`; `sent` says whether the controller took the command. -/
def recalibrateFloppy (s : Fd) (sent : Bool) : Fd :=
  let s := { s with recalibrate := false, currentTrack := 0, doFloppy := some .recalInterrupt }
  if sent then s else { s with reset := true, seek := false }.resetFloppy

/-- The command for a request is made out: the bytes are `unsigned char`. -/
def aim (s : Fd) (r : DriverRequest) : Fd :=
  let f := m.entry s.floppy
  let track := r.sector / f.sect / f.head % 256
  let seekTrack := track * 2 ^ (f.stretch % 32) % 256
  { s with
    sector := (r.sector % f.sect % 256 + 1) % 256
    head := r.sector / f.sect % f.head % 256
    track := track
    seekTrack := seekTrack
    seek := s.seek || decide (seekTrack ≠ s.currentTrack)
    write := r.write
    timers := s.timers ++ [.floppyOnInterrupt] }

/-- `do_fd_request` from `repeat` on. -/
def takeOn (s : Fd) : List Job → Fd
  | [] => { s with queue := [], doFloppy := none }
  | job :: queue =>
    let i := job.now.minor / 4
    let s :=
      { s with
        queue := job :: queue
        looked := s.looked ++ [(job.asked, i)]
        floppy := i
        seek := s.seek || decide (s.currentDrive ≠ job.now.minor % 4)
        currentDrive := job.now.minor % 4 }
    if (m.entry i).size < (job.now.sector + 2) % 2 ^ 32 then
      { s with ended := s.ended ++ [(job, false)] }.takeOn queue
    else if (m.entry i).sect = 0 ∨ (m.entry i).head = 0 then { s with fault := true }
    else s.aim m job.now

/-- `do_fd_request`. -/
def doFdRequest (s : Fd) (sent : Bool) : Fd :=
  let s := { s with seek := false }
  if s.reset then s.resetFloppy
  else if s.recalibrate then s.recalibrateFloppy sent
  else s.takeOn m s.queue

/-- `setup_DMA`. -/
def setupDMA (s : Fd) : Fd :=
  match s.queue with
  | [] => { s with fault := true }
  | job :: _ =>
    { s with
      addr := if 0x100000 ≤ job.now.buffer then m.tmpFloppyArea else job.now.buffer
      copied := if s.write then job.now.buffer else s.copied }

/-- `setup_rw_floppy`. -/
def setupRwFloppy (s : Fd) (sent : Bool) : Fd :=
  let s := { s.setupDMA m with doFloppy := some .rwInterrupt }
  if sent then s else { s with reset := true }.doFdRequest m sent

/-- `transfer`; `specified` says whether the controller took its parameters. -/
def transfer (s : Fd) (specified sent : Bool) : Fd :=
  let s := if specified then s else { s with reset := true }
  if s.reset then s.doFdRequest m sent
  else if s.seek then
    let s := { s with doFloppy := some .seekInterrupt }
    if sent then s else { s with reset := true }.doFdRequest m sent
  else s.setupRwFloppy m sent

/-- `floppy_on_interrupt`; `other` says whether another drive was selected. -/
def floppyOnInterrupt (s : Fd) (other specified sent : Bool) : Fd :=
  if other then { s with timers := s.timers ++ [.transfer] } else s.transfer m specified sent

/-- What an interrupt finds: whether all went well, whether the controller has not answered,
whether the disk is write protected, and whether the controller takes what comes next. -/
structure Outcome where
  ok : Bool
  hung : Bool
  readOnly : Bool
  sent : Bool
  deriving DecidableEq

/-- `output_byte` and `result` may set `reset`. -/
def answer (s : Fd) (o : Outcome) : Fd := { s with reset := s.reset || o.hung }

/-- The sector that the command begins at. -/
def lba (s : Fd) : ℕ :=
  (s.track * (m.entry s.floppy).head + s.head) * (m.entry s.floppy).sect + (s.sector - 1)

/-- The two sectors of a command, with the memory that they come from or go to in the end. -/
def moves (s : Fd) (j : Job) : List Transfer :=
  let buffer :=
    if s.write then s.copied else if 0x100000 ≤ j.now.buffer then j.now.buffer else s.addr
  (List.range 2).map fun n => ⟨s.currentDrive, s.lba m + n, buffer + 512 * n, s.write⟩

/-- `rw_interrupt`. -/
def rwInterrupt (s : Fd) (o : Outcome) : Fd :=
  if o.ok then
    match s.queue with
    | [] => { s with fault := true }
    | job :: queue =>
      { s with
        queue := queue
        ended := s.ended ++ [({ job with done := s.moves m job }, true)] }.doFdRequest m o.sent
  else
    let s := s.answer o
    (if o.readOnly then s.endRequest false else s.badFlpIntr).doFdRequest m o.sent

/-- `seek_interrupt`. -/
def seekInterrupt (s : Fd) (o : Outcome) : Fd :=
  if o.ok then { s with currentTrack := s.seekTrack }.setupRwFloppy m o.sent
  else (s.answer o).badFlpIntr.doFdRequest m o.sent

/-- `recal_interrupt`. -/
def recalInterrupt (s : Fd) (o : Outcome) : Fd :=
  (if o.ok then { s with recalibrate := false } else { s with reset := true }).doFdRequest m o.sent

/-- `reset_interrupt`. -/
def resetInterrupt (s : Fd) (o : Outcome) : Fd := (s.answer o).doFdRequest m o.sent

/-- `unexpected_floppy_interrupt`. -/
def unexpectedInterrupt (s : Fd) (o : Outcome) : Fd :=
  if o.ok then { s with recalibrate := true } else { s with reset := true }

/-- `floppy_interrupt`. -/
def interrupt (s : Fd) (o : Outcome) : Fd :=
  match s.doFloppy with
  | none => s.unexpectedInterrupt o
  | some .seekInterrupt => { s with doFloppy := none }.seekInterrupt m o
  | some .rwInterrupt => { s with doFloppy := none }.rwInterrupt m o
  | some .recalInterrupt => { s with doFloppy := none }.recalInterrupt m o
  | some .resetInterrupt => { s with doFloppy := none }.resetInterrupt m o

/-- A timer has run out. -/
def expire (s : Fd) (other specified sent : Bool) : FdTimer → Fd
  | .floppyOnInterrupt => s.floppyOnInterrupt m other specified sent
  | .transfer => s.transfer m specified sent

inductive Event where
  /-- a block, or a page of the swapping device, is asked for; the elevator puts the request `k`
  places after the current one -/
  | add (minor : ℕ) (write page : Bool) (nr buffer k : ℕ) (sent : Bool)
  | interrupt (o : Outcome)
  /-- the timer at `i` has run out -/
  | timer (i : ℕ) (other specified sent : Bool)
  deriving DecidableEq

/-- `add_request`. -/
def addRequest (s : Fd) (r : DriverRequest) (k : ℕ) (sent : Bool) : Fd :=
  match s.queue with
  | [] => { s with queue := [⟨r, r, []⟩] }.doFdRequest m sent
  | job :: queue => { s with queue := job :: (queue.take k ++ ⟨r, r, []⟩ :: queue.drop k) }

/-- A step of the machine, while nothing has gone wrong. -/
def step (s : Fd) (e : Event) : Option Fd :=
  if s.fault then none
  else
    match e with
    | .add minor write page nr buffer k sent =>
      some (s.addRequest m (.make minor write page nr buffer) k sent)
    | .interrupt o => some (s.interrupt m o)
    | .timer i other specified sent =>
      s.timers[i]?.map ({ s with timers := s.timers.eraseIdx i }.expire m other specified sent)

/-- The machine, from a start with nothing to do. -/
def system : System Fd Event where
  init s :=
    s.queue = [] ∧ s.ended = [] ∧ s.looked = [] ∧ s.doFloppy = none ∧ s.timers = [] ∧
      s.fault = false
  step s e s' := s.step m e = some s'

/-- A request comes to an empty queue only when nothing is waited for. -/
def Orderly (s : Fd) : Event → Prop
  | .add .. => s.queue = [] → s.timers = [] ∧ s.doFloppy = none
  | _ => True

/-! ### What holds in every state -/

/-- The request is beyond the end of its disk, as `do_fd_request` finds out. -/
def Refused (r : DriverRequest) : Prop :=
  (m.entry (r.minor / 4)).size < (r.sector + 2) % 2 ^ 32

/-- `do_fd_request` makes a command out for the request. -/
def Granted (r : DriverRequest) : Prop :=
  ¬ Refused m r ∧ 0 < (m.entry (r.minor / 4)).sect ∧ 0 < (m.entry (r.minor / 4)).head

/-- The sector that a command for a request begins at. -/
def place (r : DriverRequest) : ℕ :=
  let f := m.entry (r.minor / 4)
  (r.sector / f.sect / f.head % 256 * f.head + r.sector / f.sect % f.head % 256) * f.sect +
    ((r.sector % f.sect % 256 + 1) % 256 - 1)

/-- What a command for a request moves. -/
def moved (r : DriverRequest) : List Transfer :=
  (List.range 2).map fun n => ⟨r.minor % 4, place m r + n, r.buffer + 512 * n, r.write⟩

/-- A request in the queue is as it was asked, apart from its errors. -/
def Fresh (j : Job) : Prop := (∃ e, j.now = { j.asked with errors := e }) ∧ j.done = []

/-- A request that has ended well was moved, and another one was not. -/
def Closed (p : Job × Bool) : Prop :=
  if p.2 then Granted m p.1.asked ∧ p.1.done = moved m p.1.asked else p.1.done = []

structure Jobs (s : Fd) : Prop where
  queue : ∀ j ∈ s.queue, Fresh j
  looked : ∀ p ∈ s.looked, p.2 = p.1.minor / 4
  ended : ∀ p ∈ s.ended, Closed m p

/-- The command is for the request. -/
structure Aimed (s : Fd) (r : DriverRequest) : Prop where
  lba : s.lba m = place m r
  drive : s.currentDrive = r.minor % 4
  write : s.write = r.write
  granted : Granted m r

/-- The memory of the command is the buffer of the request. -/
def Ready (s : Fd) (r : DriverRequest) : Prop :=
  (if s.write then s.copied else if 0x100000 ≤ r.buffer then r.buffer else s.addr) = r.buffer

structure Good (s : Fd) : Prop where
  jobs : Jobs m s
  /-- one thing is waited for at a time -/
  chain : s.timers = [] ∨ s.doFloppy = none ∧ s.timers.length = 1
  aimed : s.fault = false → s.timers ≠ [] ∨ s.doFloppy = some .seekInterrupt ∨
    s.doFloppy = some .rwInterrupt → ∃ j ∈ s.queue.head?, Aimed m s j.now
  ready : s.fault = false → s.doFloppy = some .rwInterrupt → ∀ j ∈ s.queue.head?, Ready s j.now

variable {m} {s s' : Fd} {j : Job}

theorem Jobs.congr (h : Jobs m s) (hq : s'.queue = s.queue) (hl : s'.looked = s.looked)
    (he : s'.ended = s.ended) : Jobs m s' :=
  ⟨hq ▸ h.queue, hl ▸ h.looked, he ▸ h.ended⟩

theorem Fresh.failed (h : Fresh j) : Fresh j.failed := by
  obtain ⟨⟨e, he⟩, hdone⟩ := h
  refine ⟨⟨e + 1, ?_⟩, hdone⟩
  show ({ j.now with errors := j.now.errors + 1 } : DriverRequest) = _
  rw [he]
  rfl

/-- The current request ends. -/
theorem Jobs.finish (h : Jobs m s) {queue : List Job} (hq : s.queue = j :: queue) {p : Job × Bool}
    (hp : Closed m p) : Jobs m { s with queue := queue, ended := s.ended ++ [p] } := by
  refine ⟨fun i hi => h.queue i ?_, h.looked, fun p' hp' => ?_⟩
  · rw [hq]
    exact List.mem_cons_of_mem _ hi
  · rcases List.mem_append.mp hp' with hp' | hp'
    · exact h.ended p' hp'
    · rw [List.mem_singleton.mp hp']
      exact hp

/-- A request of the queue ends without having been moved. -/
theorem Fresh.closed (h : Fresh j) : Closed m (j, false) := h.2

theorem Jobs.endRequest (h : Jobs m s) : Jobs m (s.endRequest false) := by
  rw [Fd.endRequest]
  split
  case h_1 => exact h.congr rfl rfl rfl
  case h_2 j queue hq =>
    exact h.finish hq (h.queue j (by rw [hq]; exact List.mem_cons_self)).closed

theorem Jobs.countError (h : Jobs m s) : Jobs m s.countError := by
  rw [Fd.countError]
  split
  case h_1 => exact h.congr rfl rfl rfl
  case h_2 j queue hq =>
    have hj := h.queue j (by rw [hq]; exact List.mem_cons_self)
    split
    case isTrue => exact h.finish hq hj.failed.closed
    case isFalse =>
      refine ⟨fun i hi => ?_, h.looked, h.ended⟩
      rcases List.mem_cons.mp hi with rfl | hi
      · exact hj.failed
      · exact h.queue i (by rw [hq]; exact List.mem_cons_of_mem _ hi)

theorem Jobs.badFlpIntr (h : Jobs m s) : Jobs m s.badFlpIntr := by
  rw [Fd.badFlpIntr]
  split
  case h_1 => exact h.countError.congr rfl rfl rfl
  case h_2 =>
    split
    case isTrue => exact h.countError.congr rfl rfl rfl
    case isFalse => exact h.countError.congr rfl rfl rfl

/-- Errors and ends of requests leave alone what is waited for. -/
theorem endRequest_waits (ok : Bool) : (s.endRequest ok).timers = s.timers ∧
    (s.endRequest ok).doFloppy = s.doFloppy := by
  rw [Fd.endRequest]
  split <;> exact ⟨rfl, rfl⟩

theorem countError_waits :
    s.countError.timers = s.timers ∧ s.countError.doFloppy = s.doFloppy := by
  rw [Fd.countError]
  split
  case h_1 => exact ⟨rfl, rfl⟩
  case h_2 => split <;> exact ⟨rfl, rfl⟩

theorem badFlpIntr_waits :
    s.badFlpIntr.timers = s.timers ∧ s.badFlpIntr.doFloppy = s.doFloppy := by
  rw [Fd.badFlpIntr]
  split
  case h_1 => exact countError_waits
  case h_2 => split <;> exact countError_waits

/-! ### `do_fd_request` -/

/-- A command depends on what was made out for it. -/
theorem Aimed.congr {r : DriverRequest} (h : Aimed m s r) (hf : s'.floppy = s.floppy)
    (ht : s'.track = s.track) (hh : s'.head = s.head) (hs : s'.sector = s.sector)
    (hd : s'.currentDrive = s.currentDrive) (hw : s'.write = s.write) : Aimed m s' r := by
  refine ⟨?_, hd.trans h.drive, hw.trans h.write, h.granted⟩
  rw [← h.lba, Fd.lba, Fd.lba, hf, ht, hh, hs]

theorem good_resetFloppy (h : Jobs m s) (ht : s.timers = []) : Good m s.resetFloppy :=
  ⟨h.congr rfl rfl rfl, .inl ht, fun _ hw => absurd hw (by simp [resetFloppy, ht]),
    fun _ hw => absurd hw (by simp [resetFloppy])⟩

theorem good_recalibrateFloppy (h : Jobs m s) (ht : s.timers = []) (sent : Bool) :
    Good m (s.recalibrateFloppy sent) := by
  rw [recalibrateFloppy]
  split
  case isTrue =>
    exact ⟨h.congr rfl rfl rfl, .inl ht, fun _ hw => absurd hw (by simp [ht]),
      fun _ hw => absurd hw (by simp)⟩
  case isFalse => exact good_resetFloppy (h.congr rfl rfl rfl) ht

theorem good_takeOn (queue : List Job) (s : Fd) (h : Jobs m { s with queue := queue })
    (ht : s.timers = []) (hd : s.doFloppy = none) : Good m (s.takeOn m queue) := by
  induction queue generalizing s with
  | nil =>
    rw [takeOn]
    exact ⟨h.congr rfl rfl rfl, .inl ht, fun _ hw => absurd hw (by simp [ht]),
      fun _ hw => absurd hw (by simp)⟩
  | cons j queue ih =>
    obtain ⟨⟨e, he⟩, hdone⟩ := h.queue j List.mem_cons_self
    have hminor : j.now.minor = j.asked.minor := by rw [he]
    have hlooked : ∀ p ∈ s.looked ++ [(j.asked, j.now.minor / 4)], p.2 = p.1.minor / 4 := by
      intro p hp
      rcases List.mem_append.mp hp with hp | hp
      · exact h.looked p hp
      · rw [List.mem_singleton.mp hp, hminor]
    rw [takeOn]
    dsimp only
    split
    case isTrue =>
      have hjobs : Jobs m
          { s with
            queue := j :: queue
            looked := s.looked ++ [(j.asked, j.now.minor / 4)] } :=
        ⟨h.queue, hlooked, h.ended⟩
      exact ih _ ((hjobs.finish rfl (Fresh.closed ⟨⟨e, he⟩, hdone⟩)).congr rfl rfl rfl) ht hd
    case isFalse hr =>
      split
      case isTrue =>
        exact ⟨⟨h.queue, hlooked, h.ended⟩, .inl ht, nofun, nofun⟩
      case isFalse hzero =>
        have hpos := not_or.mp hzero
        have hgranted : Granted m j.now :=
          ⟨hr, Nat.pos_of_ne_zero hpos.1, Nat.pos_of_ne_zero hpos.2⟩
        refine ⟨⟨h.queue, hlooked, h.ended⟩, .inr ⟨hd, ?_⟩,
          fun _ _ => ⟨j, rfl, rfl, rfl, rfl, hgranted⟩, fun _ hw => ?_⟩
        · show (s.timers ++ [_]).length = 1
          rw [ht]
          rfl
        · rw [show _ = s.doFloppy from rfl, hd] at hw
          cases hw

theorem good_doFdRequest (h : Jobs m s) (ht : s.timers = [])
    (hd : s.reset = true ∨ s.doFloppy = none) (sent : Bool) : Good m (s.doFdRequest m sent) := by
  rw [doFdRequest]
  dsimp only
  split
  case isTrue => exact good_resetFloppy (h.congr rfl rfl rfl) ht
  case isFalse hreset =>
    split
    case isTrue =>
      refine good_recalibrateFloppy ?_ ?_ sent
      · exact h.congr rfl rfl rfl
      · exact ht
    case isFalse =>
      exact good_takeOn _ _ (h.congr rfl rfl rfl) ht (hd.resolve_left hreset)

/-! ### The interrupts and the timers -/

/-- The channel is set up for the buffer of the current request. -/
theorem ready_setupDMA (hq : j ∈ s.queue.head?) : Ready (s.setupDMA m) j.now := by
  obtain ⟨queue, hq⟩ := List.head?_eq_some_iff.mp hq
  rw [setupDMA, hq, Ready]
  dsimp only
  split
  case isTrue => rfl
  case isFalse =>
    split
    case isTrue => rfl
    case isFalse => rfl

/-- What setting up the channel leaves as it was. -/
theorem Aimed.setupDMA {r : DriverRequest} (h : Aimed m s r) : Aimed m (s.setupDMA m) r := by
  rw [Fd.setupDMA]
  split
  case h_1 => exact h.congr rfl rfl rfl rfl rfl rfl
  case h_2 => exact h.congr rfl rfl rfl rfl rfl rfl

theorem setupDMA_eq (h : s.queue ≠ []) : s.setupDMA m = { s with
    addr := (s.setupDMA m).addr
    copied := (s.setupDMA m).copied } := by
  rw [Fd.setupDMA]
  split
  case h_1 hq => exact absurd hq h
  case h_2 => rfl

theorem setupDMA_nil (h : s.queue = []) : s.setupDMA m = { s with fault := true } := by
  rw [Fd.setupDMA, h]

theorem good_setupRwFloppy (h : Jobs m s) (ht : s.timers = [])
    (ha : s.fault = false → ∃ j ∈ s.queue.head?, Aimed m s j.now) (sent : Bool) :
    Good m (s.setupRwFloppy m sent) := by
  have hkept : Jobs m (s.setupDMA m) ∧ (s.setupDMA m).timers = [] := by
    by_cases hq : s.queue = []
    · rw [setupDMA_nil hq]
      exact ⟨h.congr rfl rfl rfl, ht⟩
    · rw [setupDMA_eq hq]
      exact ⟨h.congr rfl rfl rfl, ht⟩
  rw [setupRwFloppy]
  dsimp only
  split
  case isTrue =>
    have haimed : (s.setupDMA m).fault = false →
        ∃ j ∈ (s.setupDMA m).queue.head?, Aimed m (s.setupDMA m) j.now ∧
          Ready (s.setupDMA m) j.now := by
      intro hfault
      by_cases hq : s.queue = []
      · rw [setupDMA_nil hq] at hfault
        cases hfault
      · have hsame : (s.setupDMA m).queue = s.queue ∧ (s.setupDMA m).fault = s.fault := by
          rw [setupDMA_eq hq]
          exact ⟨rfl, rfl⟩
        rw [hsame.2] at hfault
        obtain ⟨j, hj, hja⟩ := ha hfault
        rw [hsame.1]
        exact ⟨j, hj, hja.setupDMA, ready_setupDMA hj⟩
    refine ⟨hkept.1.congr rfl rfl rfl, .inl hkept.2, fun hfault _ => ?_, fun hfault _ j hj => ?_⟩
    · obtain ⟨j, hj, hja, -⟩ := haimed hfault
      exact ⟨j, hj, hja.congr rfl rfl rfl rfl rfl rfl⟩
    · obtain ⟨i, hi, -, hready⟩ := haimed hfault
      obtain rfl : i = j := Option.some.inj (hi.symm.trans hj)
      exact hready
  case isFalse =>
    refine good_doFdRequest ?_ ?_ ?_ sent
    · exact hkept.1.congr rfl rfl rfl
    · exact hkept.2
    · exact .inl rfl

theorem good_transfer (h : Jobs m s) (ht : s.timers = []) (hd : s.doFloppy = none)
    (ha : s.fault = false → ∃ j ∈ s.queue.head?, Aimed m s j.now) (specified sent : Bool) :
    Good m (s.transfer m specified sent) := by
  obtain ⟨s₁, hs₁⟩ : ∃ s₁, (if specified then s else { s with reset := true }) = s₁ := ⟨_, rfl⟩
  have hsame : Jobs m s₁ ∧ s₁.timers = [] ∧ s₁.doFloppy = none ∧
      (s₁.fault = false → ∃ j ∈ s₁.queue.head?, Aimed m s₁ j.now) := by
    rw [← hs₁]
    split
    case isTrue => exact ⟨h, ht, hd, ha⟩
    case isFalse =>
      refine ⟨h.congr rfl rfl rfl, ht, hd, fun hfault => ?_⟩
      obtain ⟨j, hj, hja⟩ := ha hfault
      exact ⟨j, hj, hja.congr rfl rfl rfl rfl rfl rfl⟩
  obtain ⟨h₁, ht₁, hd₁, ha₁⟩ := hsame
  rw [Fd.transfer, hs₁]
  dsimp only
  split
  case isTrue hreset => exact good_doFdRequest h₁ ht₁ (.inl hreset) sent
  case isFalse =>
    split
    case isTrue =>
      split
      case isTrue =>
        refine ⟨h₁.congr rfl rfl rfl, .inl ht₁, fun hfault _ => ?_, fun _ hw => ?_⟩
        · obtain ⟨j, hj, hja⟩ := ha₁ hfault
          exact ⟨j, hj, hja.congr rfl rfl rfl rfl rfl rfl⟩
        · cases hw
      case isFalse =>
        refine good_doFdRequest ?_ ?_ ?_ sent
        · exact h₁.congr rfl rfl rfl
        · exact ht₁
        · exact .inl rfl
    case isFalse => exact good_setupRwFloppy h₁ ht₁ ha₁ sent

theorem good_floppyOnInterrupt (h : Jobs m s) (ht : s.timers = []) (hd : s.doFloppy = none)
    (ha : s.fault = false → ∃ j ∈ s.queue.head?, Aimed m s j.now) (other specified sent : Bool) :
    Good m (s.floppyOnInterrupt m other specified sent) := by
  rw [floppyOnInterrupt]
  split
  case isTrue =>
    refine ⟨h.congr rfl rfl rfl, .inr ⟨hd, ?_⟩, fun hfault _ => ?_, fun _ hw => ?_⟩
    · rw [ht]
      rfl
    · obtain ⟨j, hj, hja⟩ := ha hfault
      exact ⟨j, hj, hja.congr rfl rfl rfl rfl rfl rfl⟩
    · rw [show _ = s.doFloppy from rfl, hd] at hw
      cases hw
  case isFalse => exact good_transfer h ht hd ha specified sent

/-- The command that has gone well was for the current request, and its memory is the buffer. -/
theorem moves_eq (ha : Aimed m s j.now) (hr : Ready s j.now) : s.moves m j = moved m j.now := by
  rw [moves, moved, ha.lba, ha.drive, ha.write, ← ha.write]
  rw [Ready] at hr
  rw [hr]

/-- An error is counted, and `do_fd_request` goes on. -/
theorem good_badFlpIntr (h : Jobs m s) (ht : s.timers = []) (hd : s.doFloppy = none) (sent : Bool) :
    Good m (s.badFlpIntr.doFdRequest m sent) := by
  obtain ⟨htimers, hdo⟩ := badFlpIntr_waits (s := s)
  exact good_doFdRequest h.badFlpIntr (htimers.trans ht) (.inr (hdo.trans hd)) sent

theorem good_rwInterrupt (h : Jobs m s) (ht : s.timers = []) (hd : s.doFloppy = none)
    (ha : ∃ j ∈ s.queue.head?, Aimed m s j.now) (hready : ∀ j ∈ s.queue.head?, Ready s j.now)
    (o : Outcome) : Good m (s.rwInterrupt m o) := by
  rw [Fd.rwInterrupt]
  split
  case isTrue =>
    obtain ⟨j, hj, hja⟩ := ha
    obtain ⟨queue, hq⟩ := List.head?_eq_some_iff.mp hj
    rw [hq]
    obtain ⟨⟨e, he⟩, -⟩ := h.queue j (by rw [hq]; exact List.mem_cons_self)
    have hclosed : Closed m ({ j with done := s.moves m j }, true) := by
      rw [Closed, if_pos rfl, moves_eq hja (hready j hj)]
      have hgranted := hja.granted
      rw [he] at hgranted ⊢
      exact ⟨hgranted, rfl⟩
    refine good_doFdRequest ?_ ?_ ?_ o.sent
    · exact h.finish hq hclosed
    · exact ht
    · exact .inr hd
  case isFalse =>
    -- write protected, or counted
    have hanswer : Jobs m (s.answer o) := h.congr rfl rfl rfl
    dsimp only
    split
    case isTrue =>
      have hwaits := endRequest_waits (s := s.answer o) false
      exact good_doFdRequest hanswer.endRequest (hwaits.1.trans ht) (.inr (hwaits.2.trans hd))
        o.sent
    case isFalse => exact good_badFlpIntr hanswer ht hd o.sent

theorem good_seekInterrupt (h : Jobs m s) (ht : s.timers = []) (hd : s.doFloppy = none)
    (ha : ∃ j ∈ s.queue.head?, Aimed m s j.now) (o : Outcome) : Good m (s.seekInterrupt m o) := by
  rw [Fd.seekInterrupt]
  split
  case isTrue =>
    obtain ⟨j, hj, hja⟩ := ha
    refine good_setupRwFloppy ?_ ?_ ?_ o.sent
    · exact h.congr rfl rfl rfl
    · exact ht
    · exact fun _ => ⟨j, hj, hja.congr rfl rfl rfl rfl rfl rfl⟩
  case isFalse =>
    have hanswer : Jobs m (s.answer o) := h.congr rfl rfl rfl
    exact good_badFlpIntr hanswer ht hd o.sent

theorem good_recalInterrupt (h : Jobs m s) (ht : s.timers = []) (hd : s.doFloppy = none)
    (o : Outcome) : Good m (s.recalInterrupt m o) := by
  rw [Fd.recalInterrupt]
  split
  case isTrue =>
    refine good_doFdRequest ?_ ?_ ?_ o.sent
    · exact h.congr rfl rfl rfl
    · exact ht
    · exact .inr hd
  case isFalse =>
    refine good_doFdRequest ?_ ?_ ?_ o.sent
    · exact h.congr rfl rfl rfl
    · exact ht
    · exact .inl rfl

theorem good_resetInterrupt (h : Jobs m s) (ht : s.timers = []) (hd : s.doFloppy = none)
    (o : Outcome) : Good m (s.resetInterrupt m o) := by
  have hanswer : Jobs m (s.answer o) := h.congr rfl rfl rfl
  exact good_doFdRequest hanswer ht (.inr hd) o.sent

/-- What is waited for, and what is left of the queue, is as before. -/
theorem Good.congr (h : Good m s) (hs : s' = { s with
    reset := s'.reset
    recalibrate := s'.recalibrate }) : Good m s' := by
  rw [hs]
  refine ⟨h.jobs.congr rfl rfl rfl, h.chain, fun hfault hw => ?_, h.ready⟩
  obtain ⟨j, hj, hja⟩ := h.aimed hfault hw
  exact ⟨j, hj, hja.congr rfl rfl rfl rfl rfl rfl⟩

theorem good_interrupt (h : Good m s) (hfault : s.fault = false) (o : Outcome) :
    Good m (s.interrupt m o) := by
  have hjobs : Jobs m { s with doFloppy := none } := h.jobs.congr rfl rfl rfl
  -- an interrupt that is expected comes when no timer runs
  have ht : s.doFloppy ≠ none → s.timers = [] := fun hd => h.chain.resolve_right fun hc => hd hc.1
  have haimed : s.timers ≠ [] ∨ s.doFloppy = some .seekInterrupt ∨
      s.doFloppy = some .rwInterrupt →
        ∃ j ∈ s.queue.head?, Aimed m { s with doFloppy := none } j.now := by
    intro hw
    obtain ⟨j, hj, hja⟩ := h.aimed hfault hw
    exact ⟨j, hj, hja.congr rfl rfl rfl rfl rfl rfl⟩
  rw [Fd.interrupt]
  split
  case h_1 =>
    rw [unexpectedInterrupt]
    split
    case isTrue => exact h.congr rfl
    case isFalse => exact h.congr rfl
  case h_2 hd =>
    exact good_seekInterrupt hjobs (ht (by rw [hd]; nofun)) rfl (haimed (.inr (.inl hd))) o
  case h_3 hd =>
    exact good_rwInterrupt hjobs (ht (by rw [hd]; nofun)) rfl (haimed (.inr (.inr hd)))
      (h.ready hfault hd) o
  case h_4 hd => exact good_recalInterrupt hjobs (ht (by rw [hd]; nofun)) rfl o
  case h_5 hd => exact good_resetInterrupt hjobs (ht (by rw [hd]; nofun)) rfl o

theorem good_addRequest (h : Good m s) {r : DriverRequest} {k : ℕ}
    (hc : s.queue = [] → s.timers = [] ∧ s.doFloppy = none) (sent : Bool) :
    Good m (s.addRequest m r k sent) := by
  have hnew : Fresh ⟨r, r, []⟩ := ⟨⟨r.errors, rfl⟩, rfl⟩
  rw [addRequest]
  split
  case h_1 hq =>
    obtain ⟨ht, hd⟩ := hc hq
    refine good_doFdRequest ?_ ?_ ?_ sent
    · refine ⟨fun j hj => ?_, h.jobs.looked, h.jobs.ended⟩
      rw [List.mem_singleton.mp hj]
      exact hnew
    · exact ht
    · exact .inr hd
  case h_2 j queue hq =>
    refine ⟨⟨fun i hi => ?_, h.jobs.looked, h.jobs.ended⟩, h.chain, fun hfault hw => ?_,
      fun hfault hw => ?_⟩
    · have hold : ∀ i ∈ j :: queue, Fresh i := fun i hi => h.jobs.queue i (by rw [hq]; exact hi)
      rcases List.mem_cons.mp hi with rfl | hi
      · exact hold _ List.mem_cons_self
      · rcases List.mem_append.mp hi with hi | hi
        · exact hold i (List.mem_cons_of_mem _ (List.mem_of_mem_take hi))
        · rcases List.mem_cons.mp hi with rfl | hi
          · exact hnew
          · exact hold i (List.mem_cons_of_mem _ (List.mem_of_mem_drop hi))
    · obtain ⟨i, hi, hja⟩ := h.aimed hfault hw
      rw [hq] at hi
      exact ⟨i, hi, hja.congr rfl rfl rfl rfl rfl rfl⟩
    · have hready := h.ready hfault hw
      rw [hq] at hready
      exact hready

theorem good_timer (h : Good m s) (hfault : s.fault = false) {i : ℕ} {t : FdTimer}
    (hi : s.timers[i]? = some t) : Jobs m { s with timers := s.timers.eraseIdx i } ∧
      s.timers.eraseIdx i = [] ∧ s.doFloppy = none ∧ ∃ j ∈ s.queue.head?,
        Aimed m { s with timers := s.timers.eraseIdx i } j.now := by
  have hne : s.timers ≠ [] := by
    intro hnil
    rw [hnil] at hi
    cases hi
  obtain ⟨hd, hone⟩ := h.chain.resolve_left hne
  obtain ⟨j, hj, hja⟩ := h.aimed hfault (.inl hne)
  have hlt := (List.getElem?_eq_some_iff.mp hi).1
  refine ⟨h.jobs.congr rfl rfl rfl, ?_, hd, j, hj, hja.congr rfl rfl rfl rfl rfl rfl⟩
  rw [← List.length_eq_zero_iff, List.length_eraseIdx_of_lt hlt, hone]

theorem good_step (h : Good m s) {e : Event} (hc : Orderly s e) (hs : s.step m e = some s') :
    Good m s' := by
  unfold Fd.step at hs
  split at hs
  case isTrue => cases hs
  case isFalse hrun =>
    have hfault : s.fault = false := by simpa using hrun
    cases e with
    | add minor write page nr buffer k sent =>
      cases hs
      exact good_addRequest h hc sent
    | interrupt o =>
      cases hs
      exact good_interrupt h hfault o
    | timer i other specified sent =>
      obtain ⟨t, ht, rfl⟩ := Option.map_eq_some_iff.mp hs
      obtain ⟨hjobs, hnil, hd, ha⟩ := good_timer h hfault ht
      cases t with
      | floppyOnInterrupt => exact good_floppyOnInterrupt hjobs hnil hd (fun _ => ha) _ _ _
      | transfer => exact good_transfer hjobs hnil hd (fun _ => ha) _ _

/-- In every run of the machine in which a request comes to an empty queue only when nothing is
waited for. -/
theorem driven (h : (system m).Reach Orderly s) : Good m s := by
  refine System.Reach.invariant (I := Good m) (fun s hs => ?_)
    (fun s e s' hi hg hs => good_step hi hg hs) h
  obtain ⟨hq, he, hl, hd, ht, -⟩ := hs
  refine ⟨⟨?_, ?_, ?_⟩, .inl ht, fun _ hw => ?_, fun _ hw => ?_⟩
  · rw [hq]
    exact nofun
  · rw [hl]
    exact nofun
  · rw [he]
    exact nofun
  · rw [ht, hd] at hw
    exact absurd hw (by simp)
  · rw [hd] at hw
    cases hw

/-! ### Which requests are served -/

/-- All sectors of a request. -/
def whole (r : DriverRequest) : List Transfer :=
  (List.range r.nrSectors).map fun n => ⟨r.minor % 4, r.sector + n, r.buffer + 512 * n, r.write⟩

/-- For a request the driver stays in the table and on the disk, and ends it well only when all of
its sectors are moved. -/
structure Served (m : FloppyMemory) (r : DriverRequest) (s : Fd) : Prop where
  entries : ∀ p ∈ s.looked, p.1 = r → p.2 < floppyType.length
  complete : ∀ p ∈ s.ended, p.1.asked = r → p.2 = true → p.1.done = whole r
  inside : ∀ p ∈ s.ended, p.1.asked = r → ∀ t ∈ p.1.done, t.lba < (m.entry (r.minor / 4)).size
  /-- the command that is under way -/
  command : s.fault = false → s.doFloppy = some .rwInterrupt → ∀ j ∈ s.queue.head?, j.asked = r →
    s.lba m + 2 ≤ (m.entry (r.minor / 4)).size

/-- The type is in the table, and the request is on the disk and of two sectors, or is found to
be beyond its end. -/
def Fits (m : FloppyMemory) (r : DriverRequest) : Prop :=
  r.minor / 4 < floppyType.length ∧ (r.minor / 4 = 0 ∨
    ((m.entry (r.minor / 4)).size < r.sector + 2 ∧ r.sector + 2 < 2 ^ 32) ∨
      (r.nrSectors = 2 ∧ r.sector + 2 ≤ (m.entry (r.minor / 4)).size))

/-- The types of the table. -/
theorem entry_mem {i : ℕ} (hi : i < floppyType.length) : m.entry i ∈ floppyType := by
  rw [FloppyMemory.entry, List.getElem?_eq_getElem hi]
  exact List.getElem_mem hi

theorem entry_zero : m.entry 0 = ⟨0, 0, 0, 0⟩ := rfl

theorem entry_pos {i : ℕ} (hi : i < floppyType.length) (hpos : i ≠ 0) :
    0 < (m.entry i).sect ∧ 0 < (m.entry i).head := by
  have htable : ∀ i : Fin floppyType.length, i.val ≠ 0 → 0 < (floppyType.get i).sect ∧
      0 < (floppyType.get i).head := by
    decide
  rw [FloppyMemory.entry, List.getElem?_eq_getElem hi]
  exact htable ⟨i, hi⟩ hpos

theorem floppyType_bounds : ∀ f ∈ floppyType, f.sect ≤ 18 ∧ f.head ≤ 2 ∧
    f.size ≤ 80 * (f.head * f.sect) := by
  simp [floppyType]

/-- On the disk, a command is for the sector of the request. -/
theorem place_eq {r : DriverRequest} (hi : r.minor / 4 < floppyType.length)
    (hr : r.sector + 2 ≤ (m.entry (r.minor / 4)).size) : place m r = r.sector := by
  obtain ⟨hsect, hhead, hsize⟩ := floppyType_bounds _ (entry_mem (m := m) hi)
  rw [place]
  generalize m.entry (r.minor / 4) = f at *
  have hlt : r.sector < f.head * f.sect * 80 := by omega
  have hpos : 0 < f.head * f.sect := by
    by_contra hzero
    omega
  have hsect' : 0 < f.sect := Nat.pos_of_mul_pos_left hpos
  have hhead' : 0 < f.head := Nat.pos_of_mul_pos_right hpos
  have htrack : r.sector / f.sect / f.head < 80 := by
    rw [Nat.div_div_eq_div_mul, Nat.mul_comm f.sect]
    exact Nat.div_lt_of_lt_mul hlt
  have hside : r.sector / f.sect % f.head < f.head := Nat.mod_lt _ hhead'
  have hsec : r.sector % f.sect < f.sect := Nat.mod_lt _ hsect'
  rw [Nat.mod_eq_of_lt (show r.sector / f.sect / f.head < 256 by omega),
    Nat.mod_eq_of_lt (show r.sector / f.sect % f.head < 256 by omega),
    Nat.mod_eq_of_lt (show r.sector % f.sect < 256 by omega),
    Nat.mod_eq_of_lt (show r.sector % f.sect + 1 < 256 by omega), Nat.add_sub_cancel,
    Nat.mul_comm (r.sector / f.sect / f.head), Nat.div_add_mod, Nat.mul_comm, Nat.div_add_mod]

theorem place_lt {r : DriverRequest} (hi : r.minor / 4 < floppyType.length) :
    place m r < 2 ^ 16 := by
  obtain ⟨hsect, hhead, -⟩ := floppyType_bounds _ (entry_mem (m := m) hi)
  rw [place]
  generalize m.entry (r.minor / 4) = f at *
  have hbyte : ∀ n, n % 256 ≤ 255 := fun n => Nat.le_of_lt_succ (Nat.mod_lt n (by decide))
  have htrack := hbyte (r.sector / f.sect / f.head)
  have hside := hbyte (r.sector / f.sect % f.head)
  have hcylinder := Nat.mul_le_mul htrack hhead
  have hmul := Nat.mul_le_mul (Nat.add_le_add hcylinder hside) hsect
  omega

/-- A request of two sectors that is granted and fits is on the disk. -/
theorem Fits.granted {r : DriverRequest} (h : Fits m r) (hg : Granted m r) :
    r.nrSectors = 2 ∧ r.sector + 2 ≤ (m.entry (r.minor / 4)).size ∧ place m r = r.sector := by
  obtain ⟨hi, hzero | ⟨hsize, hwrap⟩ | ⟨hnr, hsize⟩⟩ := h
  · have hsect := hg.2.1
    rw [hzero, entry_zero] at hsect
    exact absurd hsect (lt_irrefl 0)
  · refine absurd ?_ hg.1
    rw [Refused, Nat.mod_eq_of_lt hwrap]
    exact hsize
  · exact ⟨hnr, hsize, place_eq hi hsize⟩

theorem Good.served {r : DriverRequest} (h : Good m s) (hfits : Fits m r) : Served m r s := by
  have hclosed : ∀ p ∈ s.ended, p.1.asked = r → p.2 = true → p.1.done = whole r ∧
      r.nrSectors = 2 ∧ r.sector + 2 ≤ (m.entry (r.minor / 4)).size := by
    rintro p hp rfl hok
    have hp := h.jobs.ended p hp
    rw [Closed, if_pos hok] at hp
    obtain ⟨hnr, hsize, hplace⟩ := hfits.granted hp.1
    refine ⟨?_, hnr, hsize⟩
    rw [hp.2, moved, whole, hplace, hnr]
  refine ⟨?_, fun p hp hr hok => (hclosed p hp hr hok).1, fun p hp hr t ht => ?_,
    fun hfault hd j hj hr => ?_⟩
  · rintro p hp rfl
    rw [h.jobs.looked p hp]
    exact hfits.1
  · by_cases hok : p.2 = true
    · obtain ⟨hdone, hnr, hsize⟩ := hclosed p hp hr hok
      rw [hdone, whole, hnr] at ht
      obtain ⟨n, hn, rfl⟩ := List.mem_map.mp ht
      have hn := List.mem_range.mp hn
      dsimp only
      omega
    · have hp := h.jobs.ended p hp
      rw [Closed, if_neg hok] at hp
      rw [hp] at ht
      cases ht
  · obtain ⟨i, hi, haim⟩ := h.aimed hfault (.inr (.inr hd))
    obtain rfl : i = j := Option.some.inj (hi.symm.trans hj)
    obtain ⟨⟨e, he⟩, -⟩ := h.jobs.queue i (List.mem_of_mem_head? hj)
    rw [haim.lba]
    have hgranted := haim.granted
    rw [he, hr] at hgranted ⊢
    obtain ⟨-, hsize, hplace⟩ := hfits.granted hgranted
    rw [show place m { r with errors := e } = r.sector from hplace]
    exact hsize

/-- `do_fd_request` takes back no request that has ended. -/
theorem ended_takeOn {p : Job × Bool} (queue : List Job) (s : Fd) (hp : p ∈ s.ended) :
    p ∈ (s.takeOn m queue).ended := by
  induction queue generalizing s with
  | nil => exact hp
  | cons j queue ih =>
    rw [takeOn]
    dsimp only
    split
    case isTrue => exact ih _ (List.mem_append_left _ hp)
    case isFalse => split <;> exact hp

theorem ended_doFdRequest {p : Job × Bool} {sent : Bool} (hp : p ∈ s.ended) :
    p ∈ (s.doFdRequest m sent).ended := by
  rw [doFdRequest]
  dsimp only
  split
  case isTrue => exact hp
  case isFalse =>
    split
    case isTrue =>
      rw [recalibrateFloppy]
      split <;> exact hp
    case isFalse => exact ended_takeOn _ _ hp

/-- A start at which the head is where the request needs it. -/
def start (m : FloppyMemory) (r : DriverRequest) : Fd where
  queue := []
  ended := []
  looked := []
  reset := false
  recalibrate := false
  seek := false
  floppy := 0
  currentDrive := r.minor % 4
  sector := 0
  head := 0
  track := 0
  seekTrack := 0
  currentTrack :=
    let f := m.entry (r.minor / 4)
    r.sector / f.sect / f.head % 256 * 2 ^ (f.stretch % 32) % 256
  write := false
  addr := 0
  copied := 0
  doFloppy := none
  timers := []
  fault := false

section Runs

variable (m) (minor nr buffer : ℕ) (write page : Bool)

/-- A request comes to the driver at its start. -/
theorem reach_add : (system m).Reach Orderly
    ((start m (.make minor write page nr buffer)).addRequest m
      (.make minor write page nr buffer) 0 true) := by
  refine .step (s := start m (.make minor write page nr buffer))
    (a := .add minor write page nr buffer 0 true) (.init ?_) (fun _ => ⟨rfl, rfl⟩) rfl
  exact ⟨rfl, rfl, rfl, rfl, rfl, rfl⟩

/-- The entry is looked up as soon as a request comes. -/
theorem exists_looked : ∃ s, (system m).Reach Orderly s ∧
    (.make minor write page nr buffer, minor / 4) ∈ s.looked := by
  refine ⟨_, reach_add m minor nr buffer write page, ?_⟩
  show _ ∈ (takeOn m _ [⟨.make minor write page nr buffer, _, []⟩]).looked
  rw [takeOn]
  dsimp only
  split
  case isTrue => exact List.mem_singleton_self _
  case isFalse => split <;> exact List.mem_singleton_self _

/-- A request that is granted may end well. -/
theorem exists_ended (hg : Granted m (.make minor write page nr buffer)) :
    ∃ s, (system m).Reach Orderly s ∧ ∃ p ∈ s.ended, p.2 = true ∧
      p.1.asked = .make minor write page nr buffer := by
  let r := DriverRequest.make minor write page nr buffer
  -- a command is made out, and no seek is needed
  obtain ⟨s₁, hs₁, hqueue, htimers, hseek, hreset, hfault⟩ : ∃ s₁,
      (start m r).addRequest m r 0 true = s₁ ∧ s₁.queue = [⟨r, r, []⟩] ∧
        s₁.timers = [.floppyOnInterrupt] ∧ s₁.seek = false ∧ s₁.reset = false ∧
          s₁.fault = false := by
    refine ⟨_, rfl, ?_⟩
    have htake : (start m r).addRequest m r 0 true = takeOn m { start m r with
        queue := [⟨r, r, []⟩]
        seek := false } [⟨r, r, []⟩] := rfl
    rw [htake, takeOn]
    dsimp only
    split
    case isTrue hr => exact absurd hr hg.1
    case isFalse =>
      split
      case isTrue hzero =>
        have hsect : 0 < (m.entry (r.minor / 4)).sect := hg.2.1
        have hhead : 0 < (m.entry (r.minor / 4)).head := hg.2.2
        omega
      case isFalse =>
        refine ⟨rfl, rfl, ?_, rfl, rfl⟩
        simp [aim, start]
  have hreach₁ : (system m).Reach Orderly s₁ := hs₁ ▸ reach_add m minor nr buffer write page
  -- the motor is on
  obtain ⟨s₂, hs₂, hqueue₂, hdo₂, hfault₂⟩ : ∃ s₂,
      s₁.step m (.timer 0 false true true) = some s₂ ∧ s₂.queue = [⟨r, r, []⟩] ∧
        s₂.doFloppy = some .rwInterrupt ∧ s₂.fault = false := by
    refine ⟨{ s₁ with timers := [] }.setupRwFloppy m true, ?_, ?_⟩
    · simp [Fd.step, hfault, htimers, expire, floppyOnInterrupt, Fd.transfer, hseek, hreset]
    · rw [setupRwFloppy, if_pos rfl, setupDMA_eq (by rw [hqueue]; exact List.cons_ne_nil _ _)]
      exact ⟨hqueue, rfl, hfault⟩
  have hreach₂ : (system m).Reach Orderly s₂ :=
    hreach₁.step (a := .timer 0 false true true) trivial hs₂
  -- the command goes well
  obtain ⟨s₃, hs₃, p, hp, hok, hasked⟩ : ∃ s₃,
      s₂.step m (.interrupt ⟨true, false, false, true⟩) = some s₃ ∧
        ∃ p ∈ s₃.ended, p.2 = true ∧ p.1.asked = r := by
    refine ⟨s₂.interrupt m ⟨true, false, false, true⟩, ?_, ?_⟩
    · simp [Fd.step, hfault₂]
    · rw [Fd.interrupt, hdo₂]
      dsimp only
      rw [Fd.rwInterrupt, if_pos rfl, hqueue₂]
      exact ⟨_, ended_doFdRequest (List.mem_append_right _ (List.mem_singleton_self _)), rfl, rfl⟩
  exact ⟨s₃, hreach₂.step (a := .interrupt _) trivial hs₃, p, hp, hok, hasked⟩

/-- A request that the driver serves in every run fits. -/
theorem fits_of_served (h : ∀ s, (system m).Reach Orderly s →
    Served m (.make minor write page nr buffer) s) :
    Fits m (.make minor write page nr buffer) := by
  let r := DriverRequest.make minor write page nr buffer
  have hi : r.minor / 4 < floppyType.length := by
    obtain ⟨s, hs, hlooked⟩ := exists_looked m minor nr buffer write page
    exact (h s hs).entries _ hlooked rfl
  refine ⟨hi, or_iff_not_imp_left.mpr fun hpos => or_iff_not_imp_left.mpr fun hout => ?_⟩
  obtain ⟨heven, hlt⟩ : r.sector % 2 = 0 ∧ r.sector < 2 ^ 32 := DriverRequest.sector_make
  have hg : Granted m r := by
    obtain ⟨hsect, hhead⟩ := entry_pos (m := m) hi hpos
    refine ⟨fun hr => hout ?_, hsect, hhead⟩
    have hr : (m.entry (r.minor / 4)).size < (r.sector + 2) % 2 ^ 32 := hr
    show (m.entry (r.minor / 4)).size < r.sector + 2 ∧ r.sector + 2 < 2 ^ 32
    omega
  -- it may end well, when two sectors are moved
  obtain ⟨s, hs, p, hp, hok, hasked⟩ := exists_ended m minor nr buffer write page hg
  have hdone := (h s hs).complete p hp hasked hok
  have hmoved := (driven hs).jobs.ended p hp
  rw [Closed, if_pos hok, hasked] at hmoved
  rw [hmoved.2] at hdone
  have hnr : r.nrSectors = 2 := by
    have hlength := congrArg List.length hdone
    rw [moved, whole, List.length_map, List.length_map, List.length_range,
      List.length_range] at hlength
    exact hlength.symm
  have hplace : place m r = r.sector := by
    rw [moved, whole, show DriverRequest.nrSectors _ = 2 from hnr] at hdone
    exact congrArg Transfer.lba (List.cons.inj hdone).1
  refine ⟨hnr, ?_⟩
  have hsmall := place_lt (m := m) hi
  have hsize : ¬ (m.entry (r.minor / 4)).size < (r.sector + 2) % 2 ^ 32 := hg.1
  show r.sector + 2 ≤ (m.entry (r.minor / 4)).size
  omega

end Runs

end Fd

end Blk
