/-
The hard disk driver (kernel/blk_drv/hd.c, `end_request` of kernel/blk_drv/blk.h).

* `Drives` — geometry and partition table, with partitions inside their drives;
* `Job`, `Hd` — a request in the queue with what is left of it and what was transferred, and
  the driver with its queue, its flags and the sector that the controller is at;
* `Hd.step` — the interrupts, with the outcomes of the controller;
* `transfers_exact` — runs in which no last failure meets a queue of one, and no failure meets
  the last sector of a partition alone: a request that ends well was transferred sector by
  sector, one that does not is outside of its partition or failed, and no `CURRENT` is NULL;
* `retry_judged` — the rest of a request is judged as if it were a whole block.

Design notes: an interrupt runs to its end.  `do_hd_request` is taken pass by pass, where it
goes to `repeat`.
-/
import Linux012.Runs
import Mathlib.Algebra.Ring.Nat
import Mathlib.Data.List.Basic
import Mathlib.Data.Nat.Basic

namespace Blk

/-- `hd_info`, without what no transfer depends on. -/
structure Geometry where
  head : ℕ
  sect : ℕ
  cyl : ℕ

/-- `struct hd_struct`. -/
structure Partition where
  startSect : ℕ
  nrSects : ℕ

/-- The drives, with partitions that lie inside them. -/
structure Drives where
  nrHd : ℕ
  info : ℕ → Geometry
  hd : ℕ → Partition
  two : nrHd ≤ 2
  head : ∀ d < nrHd, 0 < (info d).head ∧ (info d).head ≤ 16
  sect : ∀ d < nrHd, 0 < (info d).sect ∧ (info d).sect < 256
  cyl : ∀ d < nrHd, (info d).cyl < 65536
  inside : ∀ m < 5 * nrHd, (hd m).startSect + (hd m).nrSects ≤
    (info (m / 5)).head * (info (m / 5)).sect * (info (m / 5)).cyl

/-- `struct request`, as a driver gets it; `minor` is of the device. -/
structure DriverRequest where
  minor : ℕ
  write : Bool
  errors : ℕ
  sector : ℕ
  nrSectors : ℕ
  buffer : ℕ
  deriving DecidableEq

/-- The request that `make_request` fills in for block `nr`, or `ll_rw_page` for page `nr`. -/
def DriverRequest.make (minor : ℕ) (write page : Bool) (nr buffer : ℕ) : DriverRequest where
  minor := minor
  write := write
  errors := 0
  sector := if page then (nr <<< 3) % 2 ^ 32 else (nr <<< 1) % 2 ^ 32
  nrSectors := if page then 8 else 2
  buffer := buffer

/-- Requests begin at even sectors, whose numbers are of 32 bits. -/
theorem DriverRequest.sector_make {minor nr buffer : ℕ} {write page : Bool} :
    (DriverRequest.make minor write page nr buffer).sector % 2 = 0 ∧
      (DriverRequest.make minor write page nr buffer).sector < 2 ^ 32 := by
  have hsector : (DriverRequest.make minor write page nr buffer).sector =
      if page then nr * 2 ^ 3 % 2 ^ 32 else nr * 2 ^ 1 % 2 ^ 32 := by
    rw [DriverRequest.make, Nat.shiftLeft_eq, Nat.shiftLeft_eq]
  rw [hsector]
  split <;> omega

/-- A sector is read. -/
def DriverRequest.readOn (r : DriverRequest) : DriverRequest :=
  { r with
    errors := 0
    buffer := r.buffer + 512
    sector := r.sector + 1
    nrSectors := r.nrSectors - 1 }

/-- A sector is written. -/
def DriverRequest.written (r : DriverRequest) : DriverRequest :=
  { r with nrSectors := r.nrSectors - 1 }

/-- A sector between a drive and the memory. -/
structure Transfer where
  drive : ℕ
  lba : ℕ
  buffer : ℕ
  write : Bool
  deriving DecidableEq

/-- A request in the queue, as it is and as it was asked, and its transfers (the last two are
not in the source). -/
structure Job where
  now : DriverRequest
  asked : DriverRequest
  done : List Transfer
  deriving DecidableEq

/-- The request with one error more. -/
def Job.failed (j : Job) : Job := { j with now.errors := j.now.errors + 1 }

/-- The next sector is to be written. -/
def Job.writeOn (j : Job) : Job :=
  { j with now.sector := j.now.sector + 1, now.buffer := j.now.buffer + 512 }

/-- What `do_hd` points to. -/
inductive Handler where
  | readIntr
  | writeIntr
  | recalIntr
  | resetHd
  deriving DecidableEq

/-- The driver. -/
structure Hd where
  queue : List Job
  /-- the requests that have ended, with `uptodate` (not in the source) -/
  ended : List (Job × Bool)
  reset : Bool
  recalibrate : Bool
  /-- the static variable of `reset_hd` -/
  i : ℤ
  doHd : Option Handler
  /-- the sector that the controller comes to, and the buffer of it -/
  drive : ℕ
  lba : ℕ
  sent : ℕ
  /-- `do_hd_request` goes on from `repeat` -/
  running : Bool
  /-- `CURRENT` was NULL, and was read -/
  fault : Bool
  deriving DecidableEq

/-- `MAX_ERRORS`. -/
def maxErrors : ℕ := 7

namespace Geometry

/-- `sec`, `head` and `cyl` of a block, as `hd_out` gets them. -/
def chs (g : Geometry) (block : ℕ) : ℕ × ℕ × ℕ :=
  (block % g.sect + 1, block / g.sect % g.head, block / g.sect / g.head)

/-- The sector that the controller goes to, with what the ports hold. -/
def lba (g : Geometry) (chs : ℕ × ℕ × ℕ) : ℕ :=
  (chs.2.2 % 65536 * g.head + chs.2.1) * g.sect + (chs.1 % 256 - 1)

end Geometry

namespace Hd

/-- `end_request`, of the current request. -/
def endRequest (s : Hd) (uptodate : Bool) : Hd :=
  match s.queue with
  | [] => { s with fault := true }
  | job :: queue => { s with queue := queue, ended := s.ended ++ [(job, uptodate)] }

/-- A change of the current request. -/
def setCurrent (s : Hd) (f : Job → Job) : Hd :=
  match s.queue with
  | [] => { s with fault := true }
  | job :: queue => { s with queue := f job :: queue }

/-- `++CURRENT->errors`, and `end_request(0)` at the last. -/
def countError (s : Hd) : Hd :=
  match s.queue with
  | [] => { s with fault := true }
  | job :: _ =>
    let s := s.setCurrent Job.failed
    if maxErrors ≤ job.now.errors + 1 then s.endRequest false else s

/-- `bad_rw_intr`. -/
def badRwIntr (s : Hd) : Hd :=
  match s.countError.queue with
  -- `CURRENT->errors`
  | [] => { s.countError with fault := true }
  | job :: _ =>
    if maxErrors / 2 < job.now.errors then { s.countError with reset := true } else s.countError

variable (c : Drives)

/-- `reset_hd`, with what `win_result` finds. -/
def resetHd (s : Hd) (ok : Bool) : Hd :=
  let s := if s.reset ∨ ok then s else s.badRwIntr
  let s := if s.reset then { s with reset := false, i := -1 } else s
  let s := { s with i := s.i + 1 }
  if s.i < (c.nrHd : ℤ) then { s with doHd := some .resetHd, running := false }
  else { s with running := true }

/-- `INIT_REQUEST` has found a request that `do_hd_request` does not do. -/
def Refused (r : DriverRequest) : Prop :=
  5 * c.nrHd ≤ r.minor ∨ (c.hd r.minor).nrSects < (r.sector + 2) % 2 ^ 32

instance (r : DriverRequest) : Decidable (Refused c r) := inferInstanceAs (Decidable (_ ∨ _))

/-- `hd_out` for reading or writing: the controller goes to the block. -/
def hdOut (s : Hd) (r : DriverRequest) (handler : Handler) : Hd :=
  let block := (r.sector + (c.hd r.minor).startSect) % 2 ^ 32
  { s with
    doHd := some handler
    drive := r.minor / 5
    lba := (c.info (r.minor / 5)).lba ((c.info (r.minor / 5)).chs block)
    sent := r.buffer }

/-- `do_hd_request` from `repeat` on, to the next `repeat` or to its end; `drq` is what the
status register says after a write command. -/
def doHdRequest (s : Hd) (drq : Bool) : Hd :=
  match s.queue with
  | [] => { s with doHd := none, running := false }
  | job :: _ =>
    if Refused c job.now then s.endRequest false
    else if s.reset then { s with recalibrate := true }.resetHd c true
    else if s.recalibrate then
      { s with recalibrate := false, doHd := some .recalIntr, running := false }
    else if job.now.write then
      let s := s.hdOut c job.now .writeIntr
      if drq then { s with running := false } else s.badRwIntr
    else { s.hdOut c job.now .readIntr with running := false }

/-- The sector at the controller is transferred for the current request. -/
def transfer (s : Hd) (buffer : ℕ) (write : Bool) (f : DriverRequest → DriverRequest) : Hd :=
  s.setCurrent fun job =>
    { job with now := f job.now, done := job.done ++ [⟨s.drive, s.lba, buffer, write⟩] }

/-- What is left of the current request. -/
def left (s : Hd) : ℕ :=
  match s.queue with
  | [] => 0
  | job :: _ => job.now.nrSectors

/-- Where the current request goes on. -/
def buffer (s : Hd) : ℕ :=
  match s.queue with
  | [] => 0
  | job :: _ => job.now.buffer

/-- `read_intr`. -/
def readIntr (s : Hd) (ok : Bool) : Hd :=
  if ok = false then { s.badRwIntr with running := true }
  else
    let s := s.transfer s.buffer false DriverRequest.readOn
    if s.left ≠ 0 then { s with doHd := some .readIntr, lba := s.lba + 1 }
    else { s.endRequest true with running := true }

/-- `write_intr`. -/
def writeIntr (s : Hd) (ok : Bool) : Hd :=
  if ok = false then { s.badRwIntr with running := true }
  else
    let s := s.transfer s.sent true DriverRequest.written
    if s.left ≠ 0 then
      let s := s.setCurrent Job.writeOn
      { s with doHd := some .writeIntr, lba := s.lba + 1, sent := s.buffer }
    else { s.endRequest true with running := true }

/-- `recal_intr`. -/
def recalIntr (s : Hd) (ok : Bool) : Hd :=
  { (if ok then s else s.badRwIntr) with running := true }

/-- `hd_interrupt`: `do_hd`, or `unexpected_hd_interrupt`. -/
def interrupt (s : Hd) (ok : Bool) : Hd :=
  match s.doHd with
  | none => { s with reset := true, running := true }
  | some .readIntr => { s with doHd := none }.readIntr ok
  | some .writeIntr => { s with doHd := none }.writeIntr ok
  | some .recalIntr => { s with doHd := none }.recalIntr ok
  | some .resetHd => { s with doHd := none }.resetHd c ok

/-- `hd_times_out`. -/
def hdTimesOut (s : Hd) : Hd :=
  if s.queue = [] then s
  else { s.countError with doHd := none, reset := true, running := true }

inductive Event where
  /-- a block, or a page of the swapping device, is asked for; the elevator puts the request `k`
  places after the current one -/
  | add (minor : ℕ) (write page : Bool) (nr buffer k : ℕ)
  /-- an interrupt, with what `win_result` finds -/
  | interrupt (ok : Bool)
  | timeout
  /-- `do_hd_request` goes on -/
  | proceed (drq : Bool)
  deriving DecidableEq

/-- `add_request`. -/
def addRequest (s : Hd) (r : DriverRequest) (k : ℕ) : Hd :=
  match s.queue with
  | [] => { s with queue := [⟨r, r, []⟩], running := true }
  | job :: queue => { s with queue := job :: (queue.take k ++ ⟨r, r, []⟩ :: queue.drop k) }

/-- A step of the machine, while nothing has gone wrong. -/
def step (s : Hd) (e : Event) : Option Hd :=
  if s.fault then none
  else
    match e with
    | .add minor write page nr buffer k =>
      if s.running then none else some (s.addRequest (.make minor write page nr buffer) k)
    | .interrupt ok => if s.running then none else some (s.interrupt c ok)
    | .timeout => if s.running then none else some s.hdTimesOut
    | .proceed drq => if s.running then some (s.doHdRequest c drq) else none

/-- The machine, from a start with nothing to do. -/
def system : System Hd Event where
  init s := s.queue = [] ∧ s.ended = [] ∧ s.doHd = none ∧ s.running = false ∧ s.fault = false
  step s e s' := s.step c e = some s'

/-! ### What holds in every state -/

/-- The first `k` sectors of a request. -/
def moved (r : DriverRequest) (k : ℕ) : List Transfer :=
  (List.range k).map fun n =>
    ⟨r.minor / 5, (c.hd r.minor).startSect + r.sector + n, r.buffer + 512 * n, r.write⟩

/-- The request is not inside its partition. -/
def Outside (r : DriverRequest) : Prop :=
  5 * c.nrHd ≤ r.minor ∨ (c.hd r.minor).nrSects < r.sector + r.nrSectors

/-- A request that has ended well was transferred, and another one is outside, or has failed. -/
def Sound (p : Job × Bool) : Prop :=
  if p.2 then p.1.done = moved c p.1.asked p.1.asked.nrSectors
  else Outside c p.1.asked ∨ maxErrors ≤ p.1.now.errors

/-- `do_hd_request` has taken the request on. -/
def Granted (r : DriverRequest) : Prop :=
  r.minor < 5 * c.nrHd ∧ r.sector + 2 ≤ (c.hd r.minor).nrSects

/-- `k` sectors of a request are transferred. -/
structure Progress (j : Job) (k : ℕ) : Prop where
  minor : j.now.minor = j.asked.minor
  write : j.now.write = j.asked.write
  sector : j.now.sector = j.asked.sector + k
  left : j.now.nrSectors + k = j.asked.nrSectors
  pos : 0 < j.now.nrSectors
  buffer : j.now.buffer = j.asked.buffer + 512 * k
  done : j.done = moved c j.asked k
  errors : j.now.errors < maxErrors
  granted : 0 < k → Granted c j.asked
  fit : 2 ≤ j.asked.nrSectors ∧ j.asked.nrSectors ≤ 8 ∧
    (j.asked.minor < 5 * c.nrHd → j.asked.sector + 2 < 2 ^ 32)

structure Kept (s : Hd) : Prop where
  fault : s.fault = false
  jobs : ∀ j ∈ s.queue, ∃ k, Progress c j k
  /-- only the current request has moved on -/
  fresh : ∀ j ∈ s.queue.tail, Progress c j 0
  ended : ∀ p ∈ s.ended, Sound c p

/-- The last sector of its partition is all that is left of the current request. -/
def LastLeft (s : Hd) : Prop :=
  ∃ j ∈ s.queue.head?, j.now.nrSectors = 1 ∧ j.now.sector + 1 = (c.hd j.now.minor).nrSects

/-- The last sector of its partition would be tried again. -/
def Retried (s : Hd) : Prop :=
  LastLeft c s ∧ ∀ j ∈ s.queue.head?, j.now.errors + 1 < maxErrors

/-- A failure would be the last of the only request. -/
def Alone (s : Hd) : Prop := ∃ j, s.queue = [j] ∧ maxErrors ≤ j.now.errors + 1

/-- What the driver waits for. -/
def Waits (s : Hd) : Prop :=
  match s.doHd with
  | none => s.queue = []
  | some .recalIntr | some .resetHd => s.queue ≠ [] ∧ ¬ LastLeft c s
  | some .readIntr => ∃ j ∈ s.queue.head?, j.now.write = false ∧ Granted c j.asked ∧
      s.drive = j.now.minor / 5 ∧ s.lba = (c.hd j.now.minor).startSect + j.now.sector
  | some .writeIntr => ∃ j ∈ s.queue.head?, j.now.write = true ∧ Granted c j.asked ∧
      s.drive = j.now.minor / 5 ∧ s.lba = (c.hd j.now.minor).startSect + j.now.sector ∧
        s.sent = j.now.buffer

structure Good (s : Hd) : Prop where
  kept : Kept c s
  runs : s.running = true → ¬ LastLeft c s
  waits : s.running = false → Waits c s

variable {c} {s s' : Hd} {j : Job} {k : ℕ}

/-- Another current request has all of its sectors left. -/
theorem Progress.not_last (h : Progress c j 0) : j.now.nrSectors ≠ 1 := by
  have hleft := h.left
  have hfit := h.fit
  omega

theorem Progress.failed (h : Progress c j k) (hlt : j.now.errors + 1 < maxErrors) :
    Progress c j.failed k :=
  ⟨h.minor, h.write, h.sector, h.left, h.pos, h.buffer, h.done, hlt, h.granted, h.fit⟩

/-- The current request ends, as it is or as it is changed. -/
theorem Kept.finish (h : Kept c s) {queue : List Job} (hq : s.queue = j :: queue) {j' : Job}
    {ok : Bool} (hsound : Sound c (j', ok)) :
    Kept c { s with queue := queue, ended := s.ended ++ [(j', ok)] } := by
  have htail : ∀ i ∈ queue, Progress c i 0 := fun i hi => h.fresh i (by rw [hq]; exact hi)
  refine ⟨h.fault, fun i hi => ⟨0, htail i hi⟩, fun i hi => htail i (List.mem_of_mem_tail hi),
    fun p hp => ?_⟩
  rcases List.mem_append.mp hp with hp | hp
  · exact h.ended p hp
  · rw [List.mem_singleton.mp hp]
    exact hsound

theorem endRequest_cons {queue : List Job} (hq : s.queue = j :: queue) (ok : Bool) :
    s.endRequest ok = { s with queue := queue, ended := s.ended ++ [(j, ok)] } := by
  rw [Hd.endRequest, hq]

/-- The current request is changed, and goes on. -/
theorem Kept.set (h : Kept c s) {queue : List Job} (hq : s.queue = j :: queue) {j' : Job}
    (hj' : Progress c j' k) : Kept c { s with queue := j' :: queue } := by
  refine ⟨h.fault, fun i hi => ?_, fun i hi => h.fresh i (by rw [hq]; exact hi), h.ended⟩
  rcases List.mem_cons.mp hi with rfl | hi
  · exact ⟨k, hj'⟩
  · exact ⟨0, h.fresh i (by rw [hq]; exact hi)⟩

/-- An error ends the current request, or is counted. -/
theorem countError_cons {queue : List Job} (hq : s.queue = j :: queue) : s.countError =
    if maxErrors ≤ j.now.errors + 1 then
      { s with queue := queue, ended := s.ended ++ [(j.failed, false)] }
    else { s with queue := j.failed :: queue } := by
  rw [Hd.countError, setCurrent, hq]
  rfl

theorem Kept.countError (h : Kept c s) {queue : List Job} (hq : s.queue = j :: queue) :
    Kept c s.countError := by
  obtain ⟨k, hj⟩ := h.jobs j (by rw [hq]; exact List.mem_cons_self)
  rw [countError_cons hq]
  split
  case isTrue hmax => exact h.finish hq (.inr hmax)
  case isFalse hmax => exact h.set hq (hj.failed (not_le.mp hmax))

/-- What an error leaves of the queue. -/
theorem countError_queue {queue : List Job} (hq : s.queue = j :: queue) :
    s.countError.queue = queue ∨ s.countError.queue = j.failed :: queue := by
  rw [countError_cons hq]
  split
  case isTrue => exact .inl rfl
  case isFalse => exact .inr rfl

theorem Kept.not_last_tail (h : Kept c s) {queue : List Job} (hq : s.queue = j :: queue)
    {s' : Hd} (hq' : s'.queue = queue) : ¬ LastLeft c s' := by
  rintro ⟨i, hi, hone, -⟩
  rw [hq'] at hi
  refine (h.fresh i ?_).not_last hone
  rw [hq]
  exact List.mem_of_mem_head? hi

/-- An error does not leave a last sector alone that was not. -/
theorem Kept.countError_last (h : Kept c s) (hne : s.queue ≠ []) (hlast : ¬ Retried c s) :
    ¬ LastLeft c s.countError := by
  obtain ⟨j, queue, hq⟩ := List.exists_cons_of_ne_nil hne
  by_cases hmax : maxErrors ≤ j.now.errors + 1
  · refine h.not_last_tail hq ?_
    rw [countError_cons hq, if_pos hmax]
  · rintro ⟨i, hi, hone, hend⟩
    rw [countError_cons hq, if_neg hmax, List.head?_cons, Option.mem_some_iff] at hi
    subst hi
    refine hlast ⟨⟨j, by rw [hq]; rfl, hone, hend⟩, fun i hi => ?_⟩
    rw [hq, List.head?_cons, Option.mem_some_iff] at hi
    rw [← hi]
    exact not_le.mp hmax

/-- `bad_rw_intr`, unless it fails the only request for the last time. -/
theorem badRwIntr_eq (hne : s.queue ≠ []) (halone : ¬ s.Alone) :
    s.badRwIntr = s.countError ∨ s.badRwIntr = { s.countError with reset := true } := by
  obtain ⟨j, queue, hq⟩ := List.exists_cons_of_ne_nil hne
  rw [badRwIntr]
  split
  case h_1 hnil =>
    refine absurd ⟨j, ?_, ?_⟩ halone
    · rcases countError_queue hq with hq' | hq'
      · rw [hq, ← hq', hnil]
      · rw [hq'] at hnil
        cases hnil
    · by_contra hmax
      rw [countError_cons hq, if_neg hmax] at hnil
      cases hnil
  case h_2 =>
    split
    case isTrue => exact .inr rfl
    case isFalse => exact .inl rfl

/-- Changes of what no request depends on. -/
theorem Kept.congr (h : Kept c s) (hq : s'.queue = s.queue) (he : s'.ended = s.ended)
    (hf : s'.fault = s.fault) : Kept c s' :=
  ⟨hf.trans h.fault, hq ▸ h.jobs, hq ▸ h.fresh, he ▸ h.ended⟩

theorem LastLeft.congr (hq : s'.queue = s.queue) (h : LastLeft c s') : LastLeft c s := by
  rwa [LastLeft, hq] at h

theorem Kept.badRwIntr (h : Kept c s) (hne : s.queue ≠ []) (halone : ¬ s.Alone)
    (hlast : ¬ Retried c s) : Kept c s.badRwIntr ∧ ¬ LastLeft c s.badRwIntr := by
  obtain ⟨j, queue, hq⟩ := List.exists_cons_of_ne_nil hne
  have hcount := h.countError hq
  have hlast' := h.countError_last hne hlast
  rcases badRwIntr_eq hne halone with heq | heq
  · rw [heq]
    exact ⟨hcount, hlast'⟩
  · rw [heq]
    exact ⟨hcount.congr rfl rfl rfl, fun hl => hlast' (hl.congr rfl)⟩

theorem countError_ne (hne : s.queue ≠ []) (halone : ¬ s.Alone) : s.countError.queue ≠ [] := by
  obtain ⟨j, queue, hq⟩ := List.exists_cons_of_ne_nil hne
  rw [countError_cons hq]
  split
  case isTrue hmax =>
    rintro rfl
    exact halone ⟨j, hq, hmax⟩
  case isFalse => exact List.cons_ne_nil _ _

theorem badRwIntr_ne (hne : s.queue ≠ []) (halone : ¬ s.Alone) : s.badRwIntr.queue ≠ [] := by
  rcases badRwIntr_eq hne halone with heq | heq
  · rw [heq]
    exact countError_ne hne halone
  · rw [heq]
    exact countError_ne hne halone

theorem running_countError : s.countError.running = s.running := by
  rw [Hd.countError]
  split
  case h_1 => rfl
  case h_2 j queue hq =>
    rw [setCurrent, hq]
    dsimp only
    split <;> rfl

theorem running_badRwIntr : s.badRwIntr.running = s.running := by
  rw [Hd.badRwIntr]
  split
  case h_1 => exact running_countError
  case h_2 => split <;> exact running_countError

/-! ### `reset_hd` and `do_hd_request` -/

/-- The controller is set up drive by drive, and then the request is taken on again. -/
theorem good_resetHd (h : Kept c s) (hne : s.queue ≠ []) (hlast : ¬ LastLeft c s) {ok : Bool}
    (halone : ok = false → ¬ s.Alone) : Good c (s.resetHd c ok) := by
  obtain ⟨s₁, hs₁, hk₁, hne₁, hlast₁⟩ : ∃ s₁, (if s.reset ∨ ok then s else s.badRwIntr) = s₁ ∧
      Kept c s₁ ∧ s₁.queue ≠ [] ∧ ¬ LastLeft c s₁ := by
    refine ⟨_, rfl, ?_⟩
    split
    case isTrue => exact ⟨h, hne, hlast⟩
    case isFalse hbad =>
      have hal := halone (by simpa using (not_or.mp hbad).2)
      obtain ⟨hk, hl⟩ := h.badRwIntr hne hal fun hret => hlast hret.1
      exact ⟨hk, badRwIntr_ne hne hal, hl⟩
  obtain ⟨s₂, hs₂, hk₂, hne₂, hlast₂⟩ : ∃ s₂,
      (if s₁.reset then { s₁ with reset := false, i := -1 } else s₁) = s₂ ∧
        Kept c s₂ ∧ s₂.queue ≠ [] ∧ ¬ LastLeft c s₂ := by
    refine ⟨_, rfl, ?_⟩
    split
    case isTrue => exact ⟨hk₁.congr rfl rfl rfl, hne₁, fun hl => hlast₁ (hl.congr rfl)⟩
    case isFalse => exact ⟨hk₁, hne₁, hlast₁⟩
  rw [Hd.resetHd, hs₁]
  dsimp only
  rw [hs₂]
  split
  case isTrue =>
    exact ⟨hk₂.congr rfl rfl rfl, fun hrun => absurd hrun (by simp),
      fun _ => ⟨hne₂, fun hl => hlast₂ (hl.congr rfl)⟩⟩
  case isFalse =>
    exact ⟨hk₂.congr rfl rfl rfl, fun _ hl => hlast₂ (hl.congr rfl), fun hrun =>
      absurd hrun (by simp)⟩

/-- The controller finds the sector of a block. -/
theorem lba_chs {g : Geometry} {block : ℕ} (hhead : 0 < g.head)
    (hsect : 0 < g.sect ∧ g.sect < 256) (hcyl : g.cyl < 65536)
    (hblock : block < g.head * g.sect * g.cyl) : g.lba (g.chs block) = block := by
  have hlt : block / g.sect / g.head < g.cyl := by
    rw [Nat.div_div_eq_div_mul, Nat.div_lt_iff_lt_mul (Nat.mul_pos hsect.1 hhead)]
    calc block < g.head * g.sect * g.cyl := hblock
      _ = g.cyl * (g.sect * g.head) := by rw [Nat.mul_comm, Nat.mul_comm g.head]
  have hmod : block % g.sect < g.sect := Nat.mod_lt _ hsect.1
  have hsec : (block % g.sect + 1) % 256 = block % g.sect + 1 := Nat.mod_eq_of_lt (by omega)
  rw [Geometry.lba, Geometry.chs]
  dsimp only
  rw [Nat.mod_eq_of_lt (Nat.lt_trans hlt hcyl), hsec, Nat.add_sub_cancel,
    Nat.mul_comm (block / g.sect / g.head), Nat.div_add_mod, Nat.mul_comm, Nat.div_add_mod]

/-- A drive has fewer than 2 ^ 29 sectors. -/
theorem inside_lt {m : ℕ} (hm : m < 5 * c.nrHd) :
    (c.hd m).startSect + (c.hd m).nrSects < 2 ^ 29 := by
  have hd : m / 5 < c.nrHd := by omega
  have hinside := c.inside m hm
  calc (c.hd m).startSect + (c.hd m).nrSects
      ≤ (c.info (m / 5)).head * (c.info (m / 5)).sect * (c.info (m / 5)).cyl := hinside
    _ ≤ 16 * 256 * 65536 := Nat.mul_le_mul
        (Nat.mul_le_mul (c.head _ hd).2 (Nat.le_of_lt (c.sect _ hd).2)) (Nat.le_of_lt (c.cyl _ hd))
    _ < 2 ^ 29 := by decide

/-- The test of `do_hd_request` does not wrap. -/
theorem Progress.lt (h : Progress c j k) (hm : j.asked.minor < 5 * c.nrHd) :
    j.now.sector + 2 < 2 ^ 32 := by
  have hsector := h.sector
  have hleft := h.left
  have hfit := h.fit.2.2 hm
  rcases Nat.eq_zero_or_pos k with rfl | hk
  · omega
  · obtain ⟨hminor, hgranted⟩ := h.granted hk
    have hlt := inside_lt hminor
    have hle := h.fit.2.1
    omega

theorem Progress.outside (h : Progress c j k) (hlast : j.now.nrSectors = 1 →
    j.now.sector + 1 ≠ (c.hd j.now.minor).nrSects) (hr : Refused c j.now) : Outside c j.asked := by
  rw [Refused, h.minor] at hr
  rw [h.minor] at hlast
  by_cases hm : 5 * c.nrHd ≤ j.asked.minor
  · exact .inl hm
  · have hr := hr.resolve_left hm
    rw [Nat.mod_eq_of_lt (h.lt (not_le.mp hm))] at hr
    have hsector := h.sector
    have hleft := h.left
    have hpos := h.pos
    refine .inr ?_
    by_cases hone : j.now.nrSectors = 1
    · have hne := hlast hone
      omega
    · omega

theorem Progress.granted_of_not (h : Progress c j k) (hr : ¬ Refused c j.now) :
    Granted c j.asked := by
  rw [Refused, h.minor, not_or] at hr
  have hm : j.asked.minor < 5 * c.nrHd := not_le.mp hr.1
  rw [Nat.mod_eq_of_lt (h.lt hm)] at hr
  have hsector := h.sector
  exact ⟨hm, by omega⟩

/-- The sector that the controller goes to. -/
theorem Progress.lba_eq (h : Progress c j k) (hr : ¬ Refused c j.now) :
    (c.info (j.now.minor / 5)).lba ((c.info (j.now.minor / 5)).chs
      ((j.now.sector + (c.hd j.now.minor).startSect) % 2 ^ 32)) =
      (c.hd j.now.minor).startSect + j.now.sector := by
  obtain ⟨hm, hnr⟩ := not_or.mp hr
  have hminor : j.now.minor < 5 * c.nrHd := not_le.mp hm
  rw [Nat.mod_eq_of_lt (h.lt (h.minor ▸ hminor))] at hnr
  have hd : j.now.minor / 5 < c.nrHd := by omega
  have hinside := c.inside j.now.minor hminor
  have hlt := inside_lt hminor
  rw [Nat.mod_eq_of_lt (by omega), lba_chs (c.head _ hd).1 (c.sect _ hd) (c.cyl _ hd) (by omega),
    Nat.add_comm]

/-- The conditions on a step: no failure of an only request is its last, none leaves the last
sector of a partition to be tried again, and no sector number wraps in the test of
`do_hd_request`. -/
def Careful (c : Drives) (s : Hd) : Event → Prop
  | .add minor write page nr buffer _ =>
    minor < 5 * c.nrHd → (DriverRequest.make minor write page nr buffer).sector + 2 < 2 ^ 32
  | .interrupt false => ¬ s.Alone ∧ ¬ Retried c s
  | .timeout => ¬ Retried c s
  | .proceed false => (∃ j ∈ s.queue.head?, ¬ Refused c j.now ∧ j.now.write = true ∧
      s.reset = false ∧ s.recalibrate = false) → ¬ s.Alone
  | _ => True

theorem good_doHdRequest (h : Good c s) (hrun : s.running = true) {drq : Bool}
    (hcare : Careful c s (.proceed drq)) : Good c (s.doHdRequest c drq) := by
  have hlast := h.runs hrun
  rw [Hd.doHdRequest]
  split
  case h_1 hq =>
    exact ⟨h.kept.congr rfl rfl rfl, fun hrun => absurd hrun (by simp), fun _ => hq⟩
  case h_2 j queue hq =>
    obtain ⟨k, hj⟩ := h.kept.jobs j (by rw [hq]; exact List.mem_cons_self)
    have hmem : j ∈ s.queue.head? := by
      rw [hq]
      rfl
    have hne : s.queue ≠ [] := by
      rw [hq]
      exact List.cons_ne_nil _ _
    split
    case isTrue hr =>
      -- refused, and `goto repeat`
      have hout : Outside c j.asked := hj.outside (fun hone hend => hlast ⟨j, hmem, hone, hend⟩) hr
      have hsound : Sound c (j, false) := .inl hout
      rw [endRequest_cons hq]
      exact ⟨h.kept.finish hq hsound, fun _ => h.kept.not_last_tail hq rfl, fun hwait =>
        absurd hwait (by simp [hrun])⟩
    case isFalse hr =>
      split
      case isTrue =>
        exact good_resetHd (s := { s with recalibrate := true }) (h.kept.congr rfl rfl rfl) hne
          (fun hl => hlast (hl.congr rfl)) (by nofun)
      case isFalse hreset =>
        split
        case isTrue =>
          exact ⟨h.kept.congr rfl rfl rfl, nofun, fun _ => ⟨hne, fun hl => hlast (hl.congr rfl)⟩⟩
        case isFalse hrecal =>
          have hgranted := hj.granted_of_not hr
          have hout : ∀ handler, Kept c (s.hdOut c j.now handler) := fun handler =>
            h.kept.congr rfl rfl rfl
          split
          case isTrue hw =>
            dsimp only
            split
            case isTrue =>
              refine ⟨(hout .writeIntr).congr rfl rfl rfl, nofun, fun _ => ?_⟩
              exact ⟨j, hmem, hw, hgranted, rfl, hj.lba_eq hr, rfl⟩
            case isFalse hdrq =>
              obtain rfl : drq = false := by simpa using hdrq
              have halone := hcare ⟨j, hmem, hr, hw, by simpa using hreset, by simpa using hrecal⟩
              obtain ⟨hk, hl⟩ := (hout .writeIntr).badRwIntr hne halone fun hl =>
                hlast (hl.1.congr rfl)
              refine ⟨hk, fun _ => hl, fun hwait => ?_⟩
              rw [running_badRwIntr] at hwait
              exact absurd hwait (by simp [hdOut, hrun])
          case isFalse hw =>
            refine ⟨(hout .readIntr).congr rfl rfl rfl, nofun, fun _ => ?_⟩
            exact ⟨j, hmem, by simpa using hw, hgranted, rfl, hj.lba_eq hr⟩

/-! ### The interrupts -/

/-- One more sector. -/
theorem moved_succ (r : DriverRequest) (k : ℕ) : moved c r (k + 1) = moved c r k ++
    [⟨r.minor / 5, (c.hd r.minor).startSect + r.sector + k, r.buffer + 512 * k, r.write⟩] := by
  rw [moved, List.range_succ, List.map_append]
  rfl

/-- The controller is at the sector where a request goes on. -/
theorem Progress.done_next (h : Progress c j k) {drive lba buffer : ℕ} {write : Bool}
    (hdrive : drive = j.now.minor / 5) (hlba : lba = (c.hd j.now.minor).startSect + j.now.sector)
    (hbuffer : buffer = j.now.buffer) (hwrite : j.now.write = write) :
    j.done ++ [⟨drive, lba, buffer, write⟩] = moved c j.asked (k + 1) := by
  rw [moved_succ, ← h.done, hdrive, hlba, hbuffer, h.buffer, h.minor, h.sector, Nat.add_assoc,
    ← h.write, hwrite]

/-- A sector was transferred, and the request goes on with the next. -/
theorem Progress.next (h : Progress c j k) (hgranted : Granted c j.asked) {j' : Job}
    (hmore : 0 < j.now.nrSectors - 1) (hasked : j'.asked = j.asked)
    (hdone : j'.done = moved c j.asked (k + 1)) (herrors : j'.now.errors < maxErrors)
    (hnow : j'.now =
      { j.now with
        errors := j'.now.errors
        sector := j.now.sector + 1
        nrSectors := j.now.nrSectors - 1
        buffer := j.now.buffer + 512 }) : Progress c j' (k + 1) := by
  have hleft := h.left
  refine ⟨?_, ?_, ?_, ?_, ?_, ?_, ?_, herrors, fun _ => hasked ▸ hgranted, hasked ▸ h.fit⟩
  · rw [hnow, hasked]
    exact h.minor
  · rw [hnow, hasked]
    exact h.write
  · rw [hnow, hasked, ← Nat.add_assoc, ← h.sector]
  · rw [hnow, hasked, ← hleft]
    dsimp only
    omega
  · rw [hnow]
    exact hmore
  · rw [hnow, hasked, Nat.mul_succ, ← Nat.add_assoc, ← h.buffer]
  · rw [hasked]
    exact hdone

/-- A failure that `bad_rw_intr` has counted, after which the request is taken on again. -/
theorem good_failed (h : Kept c s) (hne : s.queue ≠ []) (halone : ¬ s.Alone)
    (hlast : ¬ Retried c s) : Good c { s.badRwIntr with running := true } := by
  obtain ⟨hk, hl⟩ := h.badRwIntr hne halone hlast
  exact ⟨hk.congr rfl rfl rfl, fun _ hl' => hl (hl'.congr rfl), fun hwait => absurd hwait (by simp)⟩

theorem transfer_cons {queue : List Job} (hq : s.queue = j :: queue) (buffer : ℕ) (write : Bool)
    (f : DriverRequest → DriverRequest) : s.transfer buffer write f =
      { s with queue :=
          { j with now := f j.now, done := j.done ++ [⟨s.drive, s.lba, buffer, write⟩] } ::
            queue } := by
  rw [transfer, setCurrent, hq]

theorem good_readIntr (h : Kept c s) {queue : List Job} (hq : s.queue = j :: queue)
    (hw : j.now.write = false) (hgranted : Granted c j.asked) (hdrive : s.drive = j.now.minor / 5)
    (hlba : s.lba = (c.hd j.now.minor).startSect + j.now.sector) (hrun : s.running = false)
    {ok : Bool} (hcare : ok = false → ¬ s.Alone ∧ ¬ Retried c s) : Good c (s.readIntr ok) := by
  have hne : s.queue ≠ [] := by
    rw [hq]
    exact List.cons_ne_nil _ _
  rw [Hd.readIntr]
  split
  case isTrue hok => exact good_failed h hne (hcare hok).1 (hcare hok).2
  case isFalse =>
    obtain ⟨k, hj⟩ := h.jobs j (by rw [hq]; exact List.mem_cons_self)
    have hdone := hj.done_next hdrive hlba rfl hw
    rw [show s.buffer = j.now.buffer by rw [Hd.buffer, hq], transfer_cons hq]
    have hleft := hj.left
    have hpos := hj.pos
    dsimp only
    split
    case isTrue hmore =>
      have hmore : 0 < j.now.nrSectors - 1 := Nat.pos_of_ne_zero hmore
      have hj' : Progress c ⟨j.now.readOn, j.asked,
          j.done ++ [⟨s.drive, s.lba, j.now.buffer, false⟩]⟩ (k + 1) :=
        hj.next hgranted hmore rfl hdone (Nat.succ_pos 6) rfl
      refine ⟨(h.set hq hj').congr rfl rfl rfl, fun hr => absurd hr (by simp [hrun]), fun _ => ?_⟩
      refine ⟨_, rfl, hw, hgranted, hdrive, ?_⟩
      dsimp only
      rw [hlba, Nat.add_assoc]
      rfl
    case isFalse hlast =>
      have hzero : j.now.nrSectors - 1 = 0 := of_not_not hlast
      have hsound : Sound c (⟨j.now.readOn, j.asked,
          j.done ++ [⟨s.drive, s.lba, j.now.buffer, false⟩]⟩, true) := by
        rw [Sound, if_pos rfl, show j.asked.nrSectors = k + 1 by omega]
        exact hdone
      rw [endRequest_cons rfl]
      exact ⟨(h.finish hq hsound).congr rfl rfl rfl, fun _ => h.not_last_tail hq rfl, fun hwait =>
        absurd hwait (by simp)⟩

theorem good_writeIntr (h : Kept c s) {queue : List Job} (hq : s.queue = j :: queue)
    (hw : j.now.write = true) (hgranted : Granted c j.asked) (hdrive : s.drive = j.now.minor / 5)
    (hlba : s.lba = (c.hd j.now.minor).startSect + j.now.sector) (hsent : s.sent = j.now.buffer)
    (hrun : s.running = false) {ok : Bool} (hcare : ok = false → ¬ s.Alone ∧ ¬ Retried c s) :
    Good c (s.writeIntr ok) := by
  have hne : s.queue ≠ [] := by
    rw [hq]
    exact List.cons_ne_nil _ _
  rw [Hd.writeIntr]
  split
  case isTrue hok => exact good_failed h hne (hcare hok).1 (hcare hok).2
  case isFalse =>
    obtain ⟨k, hj⟩ := h.jobs j (by rw [hq]; exact List.mem_cons_self)
    have hdone := hj.done_next hdrive hlba hsent hw
    rw [transfer_cons hq]
    have hleft := hj.left
    have hpos := hj.pos
    dsimp only
    split
    case isTrue hmore =>
      have hmore : 0 < j.now.nrSectors - 1 := Nat.pos_of_ne_zero hmore
      have hj' : Progress c (Job.writeOn ⟨j.now.written, j.asked,
          j.done ++ [⟨s.drive, s.lba, s.sent, true⟩]⟩) (k + 1) :=
        hj.next hgranted hmore rfl hdone hj.errors rfl
      refine ⟨(h.set hq hj').congr rfl rfl rfl, fun hr => absurd hr (by simp [hrun, setCurrent]),
        fun _ => ?_⟩
      refine ⟨_, rfl, hw, hgranted, hdrive, ?_, rfl⟩
      show s.lba + 1 = (c.hd j.now.minor).startSect + (j.now.sector + 1)
      rw [hlba, Nat.add_assoc]
    case isFalse hlast =>
      have hzero : j.now.nrSectors - 1 = 0 := of_not_not hlast
      have hsound : Sound c (⟨j.now.written, j.asked,
          j.done ++ [⟨s.drive, s.lba, s.sent, true⟩]⟩, true) := by
        rw [Sound, if_pos rfl, show j.asked.nrSectors = k + 1 by omega]
        exact hdone
      rw [endRequest_cons rfl]
      exact ⟨(h.finish hq hsound).congr rfl rfl rfl, fun _ => h.not_last_tail hq rfl, fun hwait =>
        absurd hwait (by simp)⟩

theorem good_interrupt (h : Good c s) (hrun : s.running = false) {ok : Bool}
    (hcare : Careful c s (.interrupt ok)) : Good c (s.interrupt c ok) := by
  have hwait := h.waits hrun
  have hcare' : ok = false → ¬ s.Alone ∧ ¬ Retried c s := by
    rintro rfl
    exact hcare
  have hkept : Kept c { s with doHd := none } := h.kept.congr rfl rfl rfl
  rw [Hd.interrupt]
  rw [Waits] at hwait
  split at hwait
  case h_1 hnone =>
    -- `unexpected_hd_interrupt`
    rw [hnone]
    refine ⟨h.kept.congr rfl rfl rfl, fun _ => ?_, fun hr => absurd hr (by simp)⟩
    rintro ⟨j, hj, -⟩
    rw [show _ = s.queue from rfl, hwait] at hj
    cases hj
  case h_2 hrecal =>
    rw [hrecal]
    dsimp only
    rw [Hd.recalIntr]
    split
    case isTrue =>
      exact ⟨hkept.congr rfl rfl rfl, fun _ hl => hwait.2 (hl.congr rfl), fun hr =>
        absurd hr (by simp)⟩
    case isFalse hok =>
      exact good_failed hkept hwait.1 (hcare' (by simpa using hok)).1 fun hl =>
        hwait.2 (hl.1.congr rfl)
  case h_3 hreset =>
    rw [hreset]
    exact good_resetHd hkept hwait.1 (fun hl => hwait.2 (hl.congr rfl)) fun hok => (hcare' hok).1
  case h_4 hread =>
    rw [hread]
    obtain ⟨j, hj, hw, hgranted, hdrive, hlba⟩ := hwait
    obtain ⟨queue, hq⟩ := List.head?_eq_some_iff.mp hj
    exact good_readIntr hkept hq hw hgranted hdrive hlba hrun hcare'
  case h_5 hwrite =>
    rw [hwrite]
    obtain ⟨j, hj, hw, hgranted, hdrive, hlba, hsent⟩ := hwait
    obtain ⟨queue, hq⟩ := List.head?_eq_some_iff.mp hj
    exact good_writeIntr hkept hq hw hgranted hdrive hlba hsent hrun hcare'

theorem good_hdTimesOut (h : Good c s) (hcare : Careful c s .timeout) :
    Good c s.hdTimesOut := by
  rw [hdTimesOut]
  split
  case isTrue => exact h
  case isFalse hne =>
    obtain ⟨j, queue, hq⟩ := List.exists_cons_of_ne_nil hne
    have hlast := h.kept.countError_last hne hcare
    exact ⟨(h.kept.countError hq).congr rfl rfl rfl, fun _ hl => hlast (hl.congr rfl), fun hr =>
      absurd hr (by simp)⟩

theorem progress_request {minor nr buffer : ℕ} {write page : Bool}
    (h : minor < 5 * c.nrHd → (DriverRequest.make minor write page nr buffer).sector + 2 < 2 ^ 32) :
    Progress c ⟨.make minor write page nr buffer, .make minor write page nr buffer, []⟩ 0 := by
  have hnr : 2 ≤ (DriverRequest.make minor write page nr buffer).nrSectors ∧
      (DriverRequest.make minor write page nr buffer).nrSectors ≤ 8 := by
    cases page <;> simp [DriverRequest.make]
  refine ⟨rfl, rfl, rfl, rfl, ?_, rfl, rfl, Nat.succ_pos 6, fun h0 => absurd h0 (lt_irrefl 0),
    hnr.1, hnr.2, h⟩
  dsimp only
  omega

/-- What is waited for depends on the current request, and on what the controller got. -/
theorem Waits.congr (h : Waits c s) (hdo : s'.doHd = s.doHd) (hq : s'.queue.head? = s.queue.head?)
    (hdrive : s'.drive = s.drive) (hlba : s'.lba = s.lba) (hsent : s'.sent = s.sent) :
    Waits c s' := by
  have hnil : s'.queue = [] ↔ s.queue = [] := by
    rw [← List.head?_eq_none_iff, hq, List.head?_eq_none_iff]
  have hlast : LastLeft c s' ↔ LastLeft c s := by rw [LastLeft, LastLeft, hq]
  rw [Waits, hdo, hq, hdrive, hlba, hsent, Ne, hnil, hlast]
  exact h

theorem good_addRequest (h : Good c s) (hrun : s.running = false) {r : DriverRequest}
    (hr : Progress c ⟨r, r, []⟩ 0) (k : ℕ) : Good c (s.addRequest r k) := by
  rw [addRequest]
  split
  case h_1 hq =>
    refine ⟨⟨h.kept.fault, fun j hj => ?_, fun j hj => ?_, h.kept.ended⟩, fun _ => ?_, fun hw =>
      absurd hw (by simp)⟩
    · rw [List.mem_singleton.mp hj]
      exact ⟨0, hr⟩
    · cases hj
    · rintro ⟨j, hj, hone, -⟩
      obtain rfl := Option.mem_some_iff.mp hj
      exact hr.not_last hone
  case h_2 j queue hq =>
    have hfresh : ∀ i ∈ queue.take k ++ ⟨r, r, []⟩ :: queue.drop k, Progress c i 0 := by
      intro i hi
      have htail : ∀ i ∈ queue, Progress c i 0 := fun i hi => h.kept.fresh i (by rw [hq]; exact hi)
      rcases List.mem_append.mp hi with hi | hi
      · exact htail i (List.mem_of_mem_take hi)
      · rcases List.mem_cons.mp hi with rfl | hi
        · exact hr
        · exact htail i (List.mem_of_mem_drop hi)
    refine ⟨⟨h.kept.fault, fun i hi => ?_, hfresh, h.kept.ended⟩, fun hr =>
      absurd hr (by simp [hrun]), fun _ => ?_⟩
    · rcases List.mem_cons.mp hi with rfl | hi
      · exact h.kept.jobs i (by rw [hq]; exact List.mem_cons_self)
      · exact ⟨0, hfresh i hi⟩
    · -- the current request is the same
      refine (h.waits hrun).congr rfl ?_ rfl rfl rfl
      rw [hq, List.head?_cons]
      rfl

theorem good_step (h : Good c s) {e : Event} (hcare : Careful c s e)
    (hs : s.step c e = some s') : Good c s' := by
  have hfault : ¬ s.fault = true := by simp [h.kept.fault]
  cases e with
  | add minor write page nr buffer k =>
    rw [Hd.step, if_neg hfault] at hs
    split at hs
    case isTrue => cases hs
    case isFalse hrun =>
      cases hs
      exact good_addRequest h (by simpa using hrun) (progress_request hcare) k
  | interrupt ok =>
    rw [Hd.step, if_neg hfault] at hs
    split at hs
    case isTrue => cases hs
    case isFalse hrun =>
      cases hs
      exact good_interrupt h (by simpa using hrun) hcare
  | timeout =>
    rw [Hd.step, if_neg hfault] at hs
    split at hs
    case isTrue => cases hs
    case isFalse hrun =>
      cases hs
      exact good_hdTimesOut h hcare
  | proceed drq =>
    rw [Hd.step, if_neg hfault] at hs
    split at hs
    case isFalse => cases hs
    case isTrue hrun =>
      cases hs
      exact good_doHdRequest h hrun hcare

/-- In every run whose steps meet the condition, `CURRENT` is read in requests only, a request
that has ended well was transferred sector by sector, in order, between its place on its drive
and its place in the buffer, and one that has not is outside of its partition, or has failed
`MAX_ERRORS` times. -/
theorem transfers_exact (c : Drives) (s : Hd)
    (h : (system c).Reach (Careful c) s) :
    s.fault = false ∧ ∀ p ∈ s.ended, Sound c p := by
  have hgood : Good c s := by
    refine System.Reach.invariant (I := Good c) (fun s hs => ?_)
      (fun s e s' hi hg hs => good_step hi hg hs) h
    obtain ⟨hq, he, hd, hr, hf⟩ := hs
    refine ⟨⟨hf, fun j hj => ?_, fun j hj => ?_, fun p hp => ?_⟩, fun hrun => ?_, fun _ => ?_⟩
    · rw [hq] at hj
      cases hj
    · rw [hq] at hj
      cases hj
    · rw [he] at hp
      cases hp
    · rw [hr] at hrun
      cases hrun
    · rw [Waits, hd]
      exact hq
  exact ⟨hgood.kept.fault, hgood.kept.ended⟩

/-- One drive, with one partition. -/
def oneDrive : Drives where
  nrHd := 1
  info _ := ⟨4, 17, 100⟩
  hd m := if m = 0 then ⟨0, 6800⟩ else ⟨0, 0⟩
  two := by decide
  head := by decide
  sect := by decide
  cyl := by decide
  inside := by decide

def idle : Hd where
  queue := []
  ended := []
  reset := false
  recalibrate := false
  i := 0
  doHd := none
  drive := 0
  lba := 0
  sent := 0
  running := false
  fault := false

theorem transfers_exact_block : ∃ s : Hd, (s.fault = false ∧ ∀ p ∈ s.ended, Sound oneDrive p) ∧
    s.ended.map Prod.snd = [true] := by
  let events : List Event := [.add 0 false false 3399 4096 0, .proceed true, .interrupt true,
    .interrupt true]
  have hrun : (System.runOf (Hd.step oneDrive) events idle).any (fun s =>
      decide (s.ended.map Prod.snd = [true])) = true := by
    decide +kernel
  obtain ⟨s, hs, hended⟩ := (Option.any_eq_true _ _).mp hrun
  refine ⟨s, transfers_exact oneDrive s ?_, of_decide_eq_true hended⟩
  refine .of_runOf (fun _ _ _ h => h) (fun e he t => ?_) (.init ⟨rfl, rfl, rfl, rfl, rfl⟩) hs
  simp only [events, List.mem_cons, List.not_mem_nil, or_false] at he
  rcases he with rfl | rfl | rfl | rfl
  · exact fun _ => by decide
  · trivial
  · trivial
  · trivial

/-- The second sector of the last block of a partition is tried again once, and refused, as if a
whole block were to be read from there.  Seven failures of an only request leave
`CURRENT->errors` to be read where there is no `CURRENT`. -/
theorem retry_judged :
    (∃ s, (system oneDrive).Reachable s ∧ ∃ p ∈ s.ended, ¬ Sound oneDrive p) ∧
      ∃ s, (system oneDrive).Reachable s ∧ s.fault = true := by
  have hreach : ∀ events s, System.runOf (Hd.step oneDrive) events idle = some s →
      (system oneDrive).Reachable s := fun _ _ hs =>
    .of_runOf (fun _ _ _ h => h) (fun _ _ _ => trivial) (.init ⟨rfl, rfl, rfl, rfl, rfl⟩) hs
  constructor
  · have hrun : (System.runOf (Hd.step oneDrive) [.add 0 false false 3399 4096 0, .proceed true,
        .interrupt true, .interrupt false, .proceed true] idle).any (fun s =>
          s.ended.any fun p => decide (p.2 = false ∧ p.1.asked.minor = 0 ∧
            p.1.asked.sector = 6798 ∧ p.1.asked.nrSectors = 2 ∧ p.1.now.errors = 1)) = true := by
      decide +kernel
    obtain ⟨s, hs, hrun⟩ := (Option.any_eq_true _ _).mp hrun
    obtain ⟨p, hp, hrun⟩ := List.any_eq_true.mp hrun
    obtain ⟨hfalse, hminor, hsector, hnr, herrors⟩ := of_decide_eq_true hrun
    refine ⟨s, hreach _ s hs, p, hp, ?_⟩
    rw [Sound, hfalse, if_neg (by decide), Outside, hminor, hsector, hnr, herrors]
    decide
  · -- from the fourth failure on it is the reset that fails
    have hrun : (System.runOf (Hd.step oneDrive) (.add 0 false false 0 4096 0 ::
        (List.replicate 4 [Event.proceed true, .interrupt false]).flatten ++
          .proceed true :: List.replicate 3 (.interrupt false)) idle).any Hd.fault = true := by
      decide +kernel
    obtain ⟨s, hs, hfault⟩ := (Option.any_eq_true _ _).mp hrun
    exact ⟨s, hreach _ s hs, hfault⟩

end Hd

end Blk
