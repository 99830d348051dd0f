/-
The life of a block request (`make_request` and `ll_rw_page` of kernel/blk_drv/ll_rw_blk.c,
`end_request` of kernel/blk_drv/blk.h), with processes that sleep.

* `Requests` — the request array, the queues of all devices, the buffers, and where each
  process is in its call;
* `Requests.step` — a process goes on to its next sleep, or the current request of a device
  ends;
* `Lives` — a slot in use is in one queue or being filled in, a buffer is locked just if one
  request names it or one call that waits for a slot holds it, and no process sleeps for a
  request or a buffer that is done;
* `request_life` — this holds in all runs;
* `request_life_not` — a call that holds its buffer while it waits, a paging request that
  fails, and a page that is written from the last slot.

Design notes: the kernel is not preempted, so that a process that has stored to `dev` comes to
`add_request` before another one runs; interrupts end requests at any time.  `wake_up` wakes
all sleepers of a queue, one after the other.  A null pointer is read in the page directory,
and the call goes on.
-/
import Linux012.Requests

namespace Blk

open Function (update)
open Links (IsList)

/-- Where a process is. -/
inductive ReqPhase where
  | idle
  /-- `make_request` in `lock_buffer`, and in `sleep_on` with the buffer locked -/
  | lockWait (rw dev blocknr b : ℕ)
  | slotWait (cmd dev blocknr b : ℕ)
  /-- `ll_rw_page` in `sleep_on` -/
  | pageWait (cmd dev page : ℕ)
  /-- slot `i` is filled in, up to `cli` in `add_request` -/
  | adding (i : ℕ)
  /-- `ll_rw_page` in `schedule` -/
  | ioWait (i : ℕ)
  /-- `wait_on_buffer` -/
  | bufWait (b : ℕ)
  deriving DecidableEq

/-- The process sleeps on `b_wait`. -/
def ReqPhase.onBuffer (b : ℕ) : ReqPhase → Bool
  | .lockWait _ _ _ b' => b' == b
  | .bufWait b' => b' == b
  | _ => false

/-- The process sleeps on `wait_for_request`. -/
def ReqPhase.onRequest : ReqPhase → Bool
  | .slotWait .. => true
  | .pageWait .. => true
  | _ => false

/-- The requests of all devices, and the processes. -/
structure Requests (P : Type) where
  request : ℕ → Request
  /-- `waiting` of a request -/
  waiting : ℕ → Option P
  next : ℕ → Option ℕ
  /-- `current_request` of `blk_dev`, by major number -/
  current : ℕ → Option ℕ
  buffer : ℕ → Buffer
  phase : P → ReqPhase
  /-- the process is not in state `TASK_RUNNING` -/
  asleep : P → Bool
  /-- how often a null `bh` has been read through -/
  nulls : ℕ

def major (dev : ℕ) : ℕ := dev / 256

namespace Requests

variable {P : Type} [DecidableEq P]

/-- The queue of a device. -/
def queueOf (s : Requests P) (m : ℕ) : Queue := ⟨s.request, s.next, s.current m, s.buffer, []⟩

def setPhase (s : Requests P) (p : P) (phase : ReqPhase) (asleep : Bool) : Requests P :=
  { s with phase := update s.phase p phase, asleep := update s.asleep p asleep }

def setLock (s : Requests P) (b : ℕ) (lock : Bool) : Requests P :=
  { s with buffer := update s.buffer b { s.buffer b with lock := lock } }

/-- `wake_up` of the queue of the processes that are in such a phase. -/
def wake (s : Requests P) (on : ReqPhase → Bool) : Requests P :=
  { s with asleep := fun p => if on (s.phase p) then false else s.asleep p }

/-- `unlock_buffer`. -/
def unlockBuffer (s : Requests P) (b : ℕ) : Requests P :=
  (s.setLock b false).wake (ReqPhase.onBuffer b)

/-- The slot is filled in. -/
def claim (s : Requests P) (p : P) (i : ℕ) (r : Request) (waiting : Option P) : Requests P :=
  { s with
    request := update s.request i r
    waiting := update s.waiting i waiting
    next := update s.next i none
    phase := update s.phase p (.adding i)
    asleep := update s.asleep p waiting.isSome }

/-- `make_request` from `repeat` on. -/
def seekSlot (s : Requests P) (p : P) (ahead : Bool) (cmd dev blocknr b : ℕ) : Requests P :=
  match (s.queueOf 0).findRequest (Queue.lastSlot cmd) with
  | none =>
    if ahead then (s.unlockBuffer b).setPhase p .idle false
    else s.setPhase p (.slotWait cmd dev blocknr b) true
  | some i => s.claim p i ⟨dev, cmd, (blocknr <<< 1) % 2 ^ 32, some b⟩ none

/-- `make_request` from `lock_buffer` on. -/
def lockBuffer (s : Requests P) (p : P) (rw dev blocknr b : ℕ) : Requests P :=
  if (s.buffer b).lock then s.setPhase p (.lockWait rw dev blocknr b) true
  else
    let s := s.setLock b true
    if (s.queueOf 0).Idle (command rw) b then (s.unlockBuffer b).setPhase p .idle false
    else s.seekSlot p (readA ≤ rw) (command rw) dev blocknr b

/-- `make_request`, called by `ll_rw_block`; none is a panic. -/
def makeRequest (driver : ℕ → Bool) (s : Requests P) (p : P) (rw dev blocknr b : ℕ) :
    Option (Requests P) :=
  if driver (major dev) = false then some s
  else if writeA < rw then none
  else if readA ≤ rw ∧ (s.buffer b).lock = true then some s
  else some (s.lockBuffer p rw dev blocknr b)

/-- `ll_rw_page` from `repeat` on. -/
def seekPage (s : Requests P) (p : P) (cmd dev page : ℕ) : Requests P :=
  match (s.queueOf 0).findRequest nrRequest with
  | none => s.setPhase p (.pageWait cmd dev page) true
  | some i => s.claim p i ⟨dev, cmd, (page <<< 3) % 2 ^ 32, none⟩ (some p)

/-- `ll_rw_page`. -/
def llRwPage (driver : ℕ → Bool) (s : Requests P) (p : P) (rw dev page : ℕ) :
    Option (Requests P) :=
  if driver (major dev) = false then some s
  else if rw ≠ read ∧ rw ≠ write then none
  else some (s.seekPage p rw dev page)

/-- `add_request`, for the slot that `p` has filled in. -/
def addRequest (s : Requests P) (p : P) (i : ℕ) : Option (Requests P) :=
  let m := major (s.request i).dev.toNat
  ((s.queueOf m).addRequest i).map fun q => { s with
    next := q.next
    current := update s.current m q.current
    buffer := q.buffer
    phase := update s.phase p (if (s.request i).bh = none then .ioWait i else .idle) }

/-- `wait_on_buffer`. -/
def waitOnBuffer (s : Requests P) (p : P) (b : ℕ) : Requests P :=
  if (s.buffer b).lock then s.setPhase p (.bufWait b) true else s.setPhase p .idle false

/-- A process goes on with its call. -/
def go (s : Requests P) (p : P) : Option (Requests P) :=
  match s.phase p with
  | .idle => none
  | .adding i => s.addRequest p i
  | .lockWait rw dev blocknr b =>
    if s.asleep p then none else some (s.lockBuffer p rw dev blocknr b)
  | .slotWait cmd dev blocknr b =>
    if s.asleep p then none else some (s.seekSlot p false cmd dev blocknr b)
  | .pageWait cmd dev page => if s.asleep p then none else some (s.seekPage p cmd dev page)
  | .ioWait _ => if s.asleep p then none else some (s.setPhase p .idle false)
  | .bufWait b => if s.asleep p then none else some (s.waitOnBuffer p b)

/-- The `bh` part of `end_request`. -/
def endBuffer (s : Requests P) (bh : Option ℕ) (uptodate : Bool) : Requests P :=
  match bh with
  | none => if uptodate then s else { s with nulls := s.nulls + 1 }
  | some b =>
    { s with buffer := update s.buffer b { s.buffer b with uptodate := uptodate } }.unlockBuffer b

/-- `wake_up(&CURRENT->waiting)`. -/
def wakeWaiting (s : Requests P) (i : ℕ) : Requests P :=
  match s.waiting i with
  | none => s
  | some p => { s with asleep := update s.asleep p false }

/-- `end_request` for the device `m`. -/
def endRequest (s : Requests P) (m : ℕ) (uptodate : Bool) : Option (Requests P) :=
  (s.current m).map fun i =>
    let s := ((s.endBuffer (s.request i).bh uptodate).wakeWaiting i).wake ReqPhase.onRequest
    { s with
      request := update s.request i { s.request i with dev := -1 }
      current := update s.current m (s.next i) }

end Requests

/-- A step of a process, or of a device. -/
inductive ReqEvent (P : Type) where
  | block (p : P) (rw dev blocknr b : ℕ)
  | paging (p : P) (rw dev page : ℕ)
  | wait (p : P) (b : ℕ)
  | go (p : P)
  | finish (m : ℕ) (uptodate : Bool)
  /-- the other flags of a buffer change -/
  | cache (b : ℕ) (uptodate dirt : Bool)

variable {P : Type} [DecidableEq P]

/-- The process of a step. -/
def ReqEvent.process : ReqEvent P → Option P
  | .block p .. => some p
  | .paging p .. => some p
  | .wait p _ => some p
  | .go p => some p
  | _ => none

namespace Requests

def step (driver : ℕ → Bool) (s : Requests P) : ReqEvent P → Option (Requests P)
  | .block p rw dev blocknr b =>
    if s.phase p = .idle then s.makeRequest driver p rw dev blocknr b else none
  | .paging p rw dev page => if s.phase p = .idle then s.llRwPage driver p rw dev page else none
  | .wait p b => if s.phase p = .idle then some (s.waitOnBuffer p b) else none
  | .go p => s.go p
  | .finish m uptodate => s.endRequest m uptodate
  | .cache b uptodate dirt =>
    some { s with buffer := update s.buffer b { s.buffer b with
      uptodate := uptodate, dirt := dirt } }

/-- No other process is between its store to `dev` and `add_request`. -/
def Called (s : Requests P) (e : ReqEvent P) : Prop :=
  ∀ p, e.process = some p → ∀ q i, s.phase q = .adding i → q = p

/-- After `blk_dev_init`. -/
structure Start (s : Requests P) : Prop where
  free : ∀ i < nrRequest, (s.request i).dev = -1
  current : ∀ m, s.current m = none
  unlocked : ∀ b, (s.buffer b).lock = false
  idle : ∀ p, s.phase p = .idle
  nulls : s.nulls = 0

end Requests

namespace Requests

/-- A request in use names the buffer. -/
def Names (s : Requests P) (i b : ℕ) : Prop :=
  i < nrRequest ∧ 0 ≤ (s.request i).dev ∧ (s.request i).bh = some b

/-- `make_request` waits for a slot with the buffer locked. -/
def Holds (s : Requests P) (p : P) (b : ℕ) : Prop :=
  ∃ cmd dev blocknr, s.phase p = .slotWait cmd dev blocknr b

/-- What `end_request` does. -/
structure Ends (s s' : Requests P) (i : ℕ) (uptodate : Bool) : Prop where
  slot : (s'.request i).dev < 0
  others : ∀ j, j ≠ i → s'.request j = s.request j
  buffer : ∀ b, (s.request i).bh = some b → (s'.buffer b).lock = false
  sleepers : ∀ p b, (s.request i).bh = some b → (s.phase p).onBuffer b = true →
    s'.asleep p = false
  waiter : ∀ p, s.waiting i = some p → s'.asleep p = false
  seekers : ∀ p, (s.phase p).onRequest = true → s'.asleep p = false
  nulls : uptodate = true ∨ (s.request i).bh ≠ none → s'.nulls = s.nulls

/-- A request that names the buffer, or a process that holds it. -/
def Locker (s : Requests P) (b : ℕ) : ℕ ⊕ P → Prop
  | .inl i => s.Names i b
  | .inr p => s.Holds p b

/-- The same with the queues as lists. -/
structure Inv (s : Requests P) (l : ℕ → List ℕ) : Prop where
  list : ∀ m, IsList s.next (s.current m) (l m)
  used : ∀ i, (∃ m, i ∈ l m) ↔
    i < nrRequest ∧ 0 ≤ (s.request i).dev ∧ ∀ p, s.phase p ≠ .adding i
  apart : ∀ m m' i, i ∈ l m → i ∈ l m' → m = m'
  adding : ∀ p i, s.phase p = .adding i → i < nrRequest ∧ 0 ≤ (s.request i).dev
  alone : ∀ p p' i i', s.phase p = .adding i → s.phase p' = .adding i' → p = p'
  lock : ∀ b, (s.buffer b).lock = true ↔ ∃ x, s.Locker b x
  one : ∀ b x y, s.Locker b x → s.Locker b y → x = y
  writes : ∀ i < nrRequest, 0 ≤ (s.request i).dev → (s.request i).cmd = write →
    (s.request i).bh ≠ none → i < nrRequest * 2 / 3
  buffers : ∀ p b, s.asleep p = true → (s.phase p).onBuffer b = true → (s.buffer b).lock = true
  pages : ∀ p i, s.asleep p = true → s.phase p = .ioWait i ∨ s.phase p = .adding i →
    0 ≤ (s.request i).dev ∧ (s.request i).bh = none ∧ s.waiting i = some p

variable {s s' : Requests P} {l : ℕ → List ℕ} {p q : P} {i b m : ℕ}

/-! ### The parts of a step -/

omit [DecidableEq P] in
/-- Processes that are woken. -/
theorem Inv.awake (h : s.Inv l) {asleep : P → Bool}
    (hasleep : ∀ p, asleep p = true → s.asleep p = true) :
    ({ s with asleep := asleep } : Requests P).Inv l :=
  { h with
    buffers := fun p b hp => h.buffers p b (hasleep p hp)
    pages := fun p i hp => h.pages p i (hasleep p hp) }

omit [DecidableEq P] in
theorem Inv.wake (h : s.Inv l) (on : ReqPhase → Bool) : (s.wake on).Inv l := by
  refine h.awake fun p hp => ?_
  split_ifs at hp
  exact hp

/-- A phase without a slot, and without a buffer that is locked. -/
def Plain (phase : ReqPhase) : Prop :=
  (∀ i, phase ≠ .adding i) ∧ ∀ cmd dev blocknr b, phase ≠ .slotWait cmd dev blocknr b

theorem update_eq_iff {f : P → ReqPhase} {v x : ReqPhase} (hold : f p ≠ x) (hnew : v ≠ x) :
    update f p v q = x ↔ f q = x := by
  by_cases hq : q = p
  · subst hq
    rw [Function.update_self]
    exact iff_of_false hnew hold
  · rw [Function.update_of_ne hq]

/-- A process goes from such a phase to another one. -/
theorem Inv.setPhase (h : s.Inv l) {phase : ReqPhase} {asleep : Bool} (hold : Plain (s.phase p))
    (hnew : Plain phase) (hio : asleep = true → ∀ i, phase ≠ .ioWait i)
    (hbuf : asleep = true → ∀ b, phase.onBuffer b = true → (s.buffer b).lock = true) :
    (s.setPhase p phase asleep).Inv l := by
  have hadding : ∀ q i, (s.setPhase p phase asleep).phase q = .adding i ↔ s.phase q = .adding i :=
    fun q i => update_eq_iff (hold.1 i) (hnew.1 i)
  have hlocker : ∀ b x, (s.setPhase p phase asleep).Locker b x ↔ s.Locker b x := fun b x => by
    cases x with
    | inl i => exact Iff.rfl
    | inr q =>
      refine exists_congr fun cmd => exists_congr fun dev => exists_congr fun blocknr => ?_
      exact update_eq_iff (hold.2 cmd dev blocknr b) (hnew.2 cmd dev blocknr b)
  refine { h with
    used := fun i => (h.used i).trans (and_congr_right fun _ => and_congr_right fun _ =>
      forall_congr' fun q => not_congr (hadding q i).symm)
    adding := fun q i hq => h.adding q i ((hadding q i).mp hq)
    alone := fun q q' i i' hq hq' =>
      h.alone q q' i i' ((hadding q i).mp hq) ((hadding q' i').mp hq')
    lock := fun b => (h.lock b).trans (exists_congr fun x => (hlocker b x).symm)
    one := fun b x y hx hy => h.one b x y ((hlocker b x).mp hx) ((hlocker b y).mp hy)
    buffers := fun q b hq hon => ?_
    pages := fun q i hq hon => ?_ }
  · by_cases hqp : q = p
    · subst hqp
      simp only [Requests.setPhase, Function.update_self] at hq hon
      exact hbuf hq b hon
    · simp only [Requests.setPhase, Function.update_of_ne hqp] at hq hon
      exact h.buffers q b hq hon
  · by_cases hqp : q = p
    · subst hqp
      simp only [Requests.setPhase, Function.update_self] at hq hon
      exact absurd hon (not_or_intro (hio hq i) (hnew.1 i))
    · simp only [Requests.setPhase, Function.update_of_ne hqp] at hq hon
      exact h.pages q i hq hon

omit [DecidableEq P] in
/-- What a process has locked goes to `y`, with a buffer that no one else has locked. -/
theorem Inv.locks (h : s.Inv l) {t : Option ℕ} {y : ℕ ⊕ P} {buffer : ℕ → Buffer}
    (hlocker : ∀ b x, s'.Locker b x ↔ x = y ∧ t = some b ∨ x ≠ .inr p ∧ s.Locker b x)
    (hbuf : ∀ b, (buffer b).lock = true ↔ (s.buffer b).lock = true ∨ t = some b)
    (hheld : ∀ b, s.Holds p b → t = some b)
    (honly : ∀ b x, t = some b → s.Locker b x → x = .inr p) :
    (∀ b, (buffer b).lock = true ↔ ∃ x, s'.Locker b x) ∧
      ∀ b x x', s'.Locker b x → s'.Locker b x' → x = x' := by
  constructor
  · intro b
    rw [hbuf b, h.lock b]
    constructor
    · rintro (⟨x, hx⟩ | ht)
      · by_cases hxp : x = .inr p
        · subst hxp
          exact ⟨y, (hlocker b y).mpr (.inl ⟨rfl, hheld b hx⟩)⟩
        · exact ⟨x, (hlocker b x).mpr (.inr ⟨hxp, hx⟩)⟩
      · exact ⟨y, (hlocker b y).mpr (.inl ⟨rfl, ht⟩)⟩
    · rintro ⟨x, hx⟩
      rcases (hlocker b x).mp hx with ⟨-, ht⟩ | ⟨-, hx⟩
      · exact .inr ht
      · exact .inl ⟨x, hx⟩
  · intro b x x' hx hx'
    rcases (hlocker b x).mp hx with ⟨rfl, ht⟩ | ⟨hxp, hx⟩
    · rcases (hlocker b x').mp hx' with ⟨rfl, -⟩ | ⟨hxp, hx'⟩
      · rfl
      · exact absurd (honly b x' ht hx') hxp
    · rcases (hlocker b x').mp hx' with ⟨rfl, ht⟩ | ⟨-, hx'⟩
      · exact absurd (honly b x ht hx) hxp
      · exact h.one b x x' hx hx'

/-- `make_request` waits for a slot. -/
theorem Inv.hold (h : s.Inv l) {cmd dev blocknr : ℕ} {buffer : ℕ → Buffer}
    (hnone : ∀ i, s.phase p ≠ .adding i)
    (hbuf : ∀ b', (buffer b').lock = true ↔ (s.buffer b').lock = true ∨ some b = some b')
    (hheld : ∀ b', s.Holds p b' → some b = some b')
    (honly : ∀ b' x, some b = some b' → s.Locker b' x → x = .inr p) :
    (({ s with buffer := buffer } : Requests P).setPhase p (.slotWait cmd dev blocknr b) true).Inv
      l := by
  have hadding : ∀ q i, update s.phase p (.slotWait cmd dev blocknr b) q = .adding i ↔
      s.phase q = .adding i := fun q i => update_eq_iff (hnone i) (by simp)
  have hlocker : ∀ b' x, (({ s with buffer := buffer } : Requests P).setPhase p
      (.slotWait cmd dev blocknr b) true).Locker b' x ↔
      x = .inr p ∧ some b = some b' ∨ x ≠ .inr p ∧ s.Locker b' x := fun b' x => by
    cases x with
    | inl j => simp [Locker, Names, Requests.setPhase]
    | inr q =>
      by_cases hq : q = p
      · subst hq
        simp [Locker, Holds, Requests.setPhase]
      · simp [Locker, Holds, Requests.setPhase, hq]
  obtain ⟨hlock, hone⟩ := h.locks hlocker hbuf hheld honly
  refine { h with
    used := fun i => (h.used i).trans (and_congr_right fun _ => and_congr_right fun _ =>
      forall_congr' fun q => not_congr (hadding q i).symm)
    adding := fun q i hq => h.adding q i ((hadding q i).mp hq)
    alone := fun q q' i i' hq hq' =>
      h.alone q q' i i' ((hadding q i).mp hq) ((hadding q' i').mp hq')
    lock := hlock
    one := hone
    buffers := fun q b' hq hon => ?_
    pages := fun q i hq hon => ?_ }
  · by_cases hqp : q = p
    · subst hqp
      simp [Requests.setPhase, ReqPhase.onBuffer] at hon
    · simp only [Requests.setPhase, Function.update_of_ne hqp] at hq hon
      exact (hbuf b').mpr (.inl (h.buffers q b' hq hon))
  · by_cases hqp : q = p
    · subst hqp
      simp [Requests.setPhase] at hon
    · simp only [Requests.setPhase, Function.update_of_ne hqp] at hq hon
      exact h.pages q i hq hon

/-- A slot that is filled in, by a process that may hold the buffer of the request. -/
theorem Inv.claim (h : s.Inv l) {r : Request} {waiting : Option P} {buffer : ℕ → Buffer}
    (hnone : ∀ q j, s.phase q ≠ .adding j) (hi : i < nrRequest) (hfree : (s.request i).dev < 0)
    (hr : 0 ≤ r.dev) (hwrite : r.cmd = write → r.bh ≠ none → i < nrRequest * 2 / 3)
    (hwait : waiting.isSome = true → r.bh = none ∧ waiting = some p)
    (hbuf : ∀ b, (buffer b).lock = true ↔ (s.buffer b).lock = true ∨ r.bh = some b)
    (hheld : ∀ b, s.Holds p b → r.bh = some b)
    (honly : ∀ b x, r.bh = some b → s.Locker b x → x = .inr p) :
    (({ s with buffer := buffer } : Requests P).claim p i r waiting).Inv l := by
  have hil : ∀ m, i ∉ l m := fun m hmem => by
    have hdev := ((h.used i).mp ⟨m, hmem⟩).2.1
    omega
  have hadding : ∀ q j, update s.phase p (.adding i) q = .adding j ↔ q = p ∧ j = i := fun q j => by
    by_cases hq : q = p
    · subst hq
      rw [Function.update_self, ReqPhase.adding.injEq]
      exact ⟨fun hj => ⟨rfl, hj.symm⟩, fun hj => hj.2.symm⟩
    · rw [Function.update_of_ne hq]
      exact iff_of_false (hnone q j) fun hj => hq hj.1
  have hlocker : ∀ b x,
      (({ s with buffer := buffer } : Requests P).claim p i r waiting).Locker b x ↔
      x = .inl i ∧ r.bh = some b ∨ x ≠ .inr p ∧ s.Locker b x := fun b x => by
    cases x with
    | inl j =>
      by_cases hj : j = i
      · subst hj
        simp [Locker, Names, Requests.claim, hi, hr, hfree]
      · simp [Locker, Names, Requests.claim, hj]
    | inr q =>
      by_cases hq : q = p
      · subst hq
        simp [Locker, Holds, Requests.claim]
      · simp [Locker, Holds, Requests.claim, hq]
  obtain ⟨hlock, hone⟩ := h.locks hlocker hbuf hheld honly
  constructor
  · exact fun m => (h.list m).update (hil m) _
  · intro j
    rw [h.used j]
    by_cases hj : j = i
    · subst hj
      refine iff_of_false (fun hu => ?_) fun hu => hu.2.2 p ((hadding p j).mpr ⟨rfl, rfl⟩)
      exact absurd hu.2.1 (by omega)
    · simp only [Requests.claim, Function.update_of_ne hj]
      refine and_congr_right fun _ => and_congr_right fun _ => ?_
      exact ⟨fun _ q hq => hj ((hadding q j).mp hq).2, fun _ q => hnone q j⟩
  · exact h.apart
  · intro q j hq
    obtain ⟨rfl, rfl⟩ := (hadding q j).mp hq
    simpa [Requests.claim] using ⟨hi, hr⟩
  · exact fun q q' j j' hq hq' =>
      ((hadding q j).mp hq).1.trans ((hadding q' j').mp hq').1.symm
  · exact hlock
  · exact hone
  · intro j hj
    by_cases hji : j = i
    · subst hji
      simp only [Requests.claim, Function.update_self]
      exact fun _ => hwrite
    · simp only [Requests.claim, Function.update_of_ne hji]
      exact h.writes j hj
  · intro q b hq hon
    by_cases hqp : q = p
    · subst hqp
      simp [Requests.claim, ReqPhase.onBuffer] at hon
    · simp only [Requests.claim, Function.update_of_ne hqp] at hq hon
      exact (hbuf b).mpr (.inl (h.buffers q b hq hon))
  · intro q j hq hon
    by_cases hqp : q = p
    · subst hqp
      simp only [Requests.claim, Function.update_self] at hq hon
      have hji : i = j := by simpa using hon
      subst hji
      simpa [Requests.claim] using ⟨hr, hwait hq⟩
    · simp only [Requests.claim, Function.update_of_ne hqp] at hq hon
      have hpage := h.pages q j hq hon
      have hji : j ≠ i := fun hji => by
        subst hji
        omega
      simpa only [Requests.claim, Function.update_of_ne hji] using hpage

/-! ### The calls -/

omit [DecidableEq P] in
theorem Inv.unlocked (h : s.Inv l) (hb : (s.buffer b).lock = false) (x : ℕ ⊕ P) :
    ¬ s.Locker b x := fun hx => by
  have hlock := (h.lock b).mpr ⟨x, hx⟩
  rw [hb] at hlock
  cases hlock

omit [DecidableEq P] in
theorem Plain.not_holds (hp : Plain (s.phase p)) : ¬ s.Holds p b := fun ⟨cmd, dev, blocknr, heq⟩ =>
  hp.2 cmd dev blocknr b heq

theorem plain_idle : Plain .idle := ⟨by simp, by simp⟩

omit [DecidableEq P] in
/-- A buffer that is locked and unlocked again. -/
theorem unlock_lock (hb : (s.buffer b).lock = false) :
    (s.setLock b true).unlockBuffer b = s.wake (ReqPhase.onBuffer b) := by
  have hbuffer : update (update s.buffer b { s.buffer b with lock := true }) b
      { s.buffer b with lock := false } = s.buffer := by
    rw [Function.update_idem, ← hb]
    exact Function.update_eq_self b s.buffer
  simp only [unlockBuffer, setLock, Function.update_self, hbuffer]

omit [DecidableEq P] in
theorem lock_setLock (b' : ℕ) : ((s.setLock b true).buffer b').lock = true ↔
    (s.buffer b').lock = true ∨ some b = some b' := by
  by_cases hb : b' = b
  · subst hb
    simp [setLock]
  · simp [setLock, hb, Ne.symm hb]

theorem Inv.idle_unlock (h : s.Inv l) (hp : Plain (s.phase p)) (hb : (s.buffer b).lock = false) :
    (((s.setLock b true).unlockBuffer b).setPhase p .idle false).Inv l := by
  rw [unlock_lock hb]
  exact (h.wake _).setPhase hp plain_idle (by simp) (by simp)

theorem Inv.lockBuffer (h : s.Inv l) (hnone : ∀ q j, s.phase q ≠ .adding j)
    (hp : Plain (s.phase p)) {rw dev blocknr : ℕ} :
    (s.lockBuffer p rw dev blocknr b).Inv l := by
  rw [Requests.lockBuffer]
  split
  case isTrue hb =>
    refine h.setPhase hp ⟨by simp, by simp⟩ (by simp) fun _ b' hb' => ?_
    obtain rfl : b = b' := by simpa [ReqPhase.onBuffer] using hb'
    exact hb
  case isFalse hb =>
    have hb : (s.buffer b).lock = false := by simpa using hb
    have honly : ∀ b' x, some b = some b' → s.Locker b' x → x = .inr p := fun b' x heq hx => by
      cases heq
      exact absurd hx (h.unlocked hb x)
    have hheld : ∀ b', s.Holds p b' → some b = some b' := fun b' hb' => absurd hb' hp.not_holds
    dsimp only
    split
    case isTrue => exact h.idle_unlock hp hb
    case isFalse =>
      rw [Requests.seekSlot]
      split
      case h_1 =>
        split
        case isTrue => exact h.idle_unlock hp hb
        case isFalse => exact h.hold hp.1 lock_setLock hheld honly
      case h_2 i hi =>
        obtain ⟨hlt, hfree⟩ := Queue.findRequest_spec hi
        refine h.claim hnone (hlt.trans_le (Queue.lastSlot_le _)) hfree (by simp) (fun hw _ => ?_)
          (by simp) lock_setLock hheld honly
        have hw : command rw = write := hw
        simpa [Queue.lastSlot, hw, read, write] using hlt

theorem Inv.seekSlot (h : s.Inv l) (hnone : ∀ q j, s.phase q ≠ .adding j)
    {cmd dev blocknr : ℕ} (hp : s.phase p = .slotWait cmd dev blocknr b) :
    (s.seekSlot p false cmd dev blocknr b).Inv l := by
  have hholds : s.Holds p b := ⟨cmd, dev, blocknr, hp⟩
  have hlock : ∀ b', (s.buffer b').lock = true ↔ (s.buffer b').lock = true ∨ some b = some b' := by
    refine fun b' => ⟨.inl, ?_⟩
    rintro (hb | hb)
    · exact hb
    · cases hb
      exact (h.lock b).mpr ⟨.inr p, hholds⟩
  have honly : ∀ b' x, some b = some b' → s.Locker b' x → x = .inr p := fun b' x heq hx => by
    cases heq
    exact h.one b x (.inr p) hx hholds
  have hheld : ∀ b', s.Holds p b' → some b = some b' := by
    rintro b' ⟨cmd', dev', blocknr', hb'⟩
    rw [hp] at hb'
    cases hb'
    rfl
  rw [Requests.seekSlot]
  split
  case h_1 => exact h.hold (hnone p) hlock hheld honly
  case h_2 i hi =>
    obtain ⟨hlt, hfree⟩ := Queue.findRequest_spec hi
    refine h.claim hnone (hlt.trans_le (Queue.lastSlot_le _)) hfree (by simp) (fun hw _ => ?_)
      (by simp) hlock hheld honly
    have hw : cmd = write := hw
    simpa [Queue.lastSlot, hw, read, write] using hlt

theorem Inv.seekPage (h : s.Inv l) (hnone : ∀ q j, s.phase q ≠ .adding j)
    (hp : Plain (s.phase p)) {cmd dev page : ℕ} : (s.seekPage p cmd dev page).Inv l := by
  rw [Requests.seekPage]
  split
  case h_1 => exact h.setPhase hp ⟨by simp, by simp⟩ (by simp) (by simp [ReqPhase.onBuffer])
  case h_2 i hi =>
    obtain ⟨hlt, hfree⟩ := Queue.findRequest_spec hi
    exact h.claim hnone hlt hfree (by simp) (by simp) (by simp) (by simp)
      (fun b hb => absurd hb hp.not_holds) (by simp)

theorem Inv.waitOnBuffer (h : s.Inv l) (hp : Plain (s.phase p)) : (s.waitOnBuffer p b).Inv l := by
  rw [Requests.waitOnBuffer]
  split
  case isTrue hb =>
    refine h.setPhase hp ⟨by simp, by simp⟩ (by simp) fun _ b' hb' => ?_
    obtain rfl : b = b' := by simpa [ReqPhase.onBuffer] using hb'
    exact hb
  case isFalse => exact h.setPhase hp plain_idle (by simp) (by simp)

/-! ### The queues -/

omit [DecidableEq P] in
theorem Inv.length_le (h : s.Inv l) (m : ℕ) : (l m).length ≤ nrRequest := by
  have hsub : l m ⊆ List.range nrRequest := fun i hi =>
    List.mem_range.mpr ((h.used i).mp ⟨m, hi⟩).1
  simpa using ((h.list m).nodup.subperm hsub).length_le

/-- `add_request` comes to an end, and the request is in the queue of its device. -/
theorem Inv.addRequest (h : s.Inv l) (hp : s.phase p = .adding i) :
    ∃ s' l', s.addRequest p i = some s' ∧ s'.Inv l' := by
  set m := major (s.request i).dev.toNat with hm
  have hil : ∀ m, i ∉ l m := fun m hmem => ((h.used i).mp ⟨m, hmem⟩).2.2 p hp
  obtain ⟨q, l₁, l₂, hadd, hl, -, hlist, hnext, -, hbuffer, -⟩ :=
    Queue.addRequest_spec (q := s.queueOf m) (h.list m) (hil m) (h.length_le m)
  refine ⟨_, update l m (l₁ ++ i :: l₂), by rw [Requests.addRequest, ← hm, hadd]; rfl, ?_⟩
  have hlock : ∀ b, (q.buffer b).lock = (s.buffer b).lock := fun b => by
    rw [hbuffer, Queue.clearDirt]
    split
    · rfl
    case h_2 b' _ =>
      by_cases hb : b = b'
      · subst hb
        simp [queueOf]
      · simp [queueOf, hb]
  set phase : ReqPhase := if (s.request i).bh = none then .ioWait i else .idle with hphase
  have hwhere : phase = .ioWait i ∨ phase = .idle := by
    rw [hphase]
    split
    · exact .inl rfl
    · exact .inr rfl
  have hnew : Plain phase := by
    rcases hwhere with heq | heq
    · rw [heq]
      exact ⟨by simp, by simp⟩
    · rw [heq]
      exact plain_idle
  have hadding : ∀ q j, update s.phase p phase q = .adding j ↔ q ≠ p ∧ s.phase q = .adding j := by
    intro q j
    by_cases hq : q = p
    · subst hq
      simp [hnew.1 j]
    · simp [hq]
  have hlocker : ∀ b x, ({ s with
      next := q.next
      current := update s.current m q.current
      buffer := q.buffer
      phase := update s.phase p phase } : Requests P).Locker b x ↔ s.Locker b x := fun b x => by
    cases x with
    | inl j => exact Iff.rfl
    | inr q =>
      refine exists_congr fun cmd => exists_congr fun dev => exists_congr fun blocknr => ?_
      exact update_eq_iff (by simp [hp]) (hnew.2 cmd dev blocknr b)
  have hmem : ∀ m' j, j ∈ update l m (l₁ ++ i :: l₂) m' ↔ j ∈ l m' ∨ j = i ∧ m' = m := by
    intro m' j
    by_cases hm' : m' = m
    · subst hm'
      rw [Function.update_self, hl, List.perm_middle.mem_iff, List.mem_cons]
      simp [or_comm]
    · simp [hm']
  constructor
  · intro m'
    by_cases hm' : m' = m
    · subst hm'
      simpa using hlist
    · simp only [Function.update_of_ne hm']
      refine (h.list m').congr fun j hj => hnext j fun hji => ?_
      rcases List.mem_cons.mp hji with rfl | hji
      · exact hil m' hj
      · exact hm' (h.apart m' m j hj hji)
  · intro j
    show _ ↔ j < nrRequest ∧ 0 ≤ (s.request j).dev ∧ ∀ q, update s.phase p phase q ≠ .adding j
    simp only [hmem, ne_eq, hadding]
    by_cases hj : j = i
    · subst hj
      refine iff_of_true ⟨m, .inr ⟨rfl, rfl⟩⟩ ?_
      obtain ⟨hlt, hdev⟩ := h.adding p j hp
      exact ⟨hlt, hdev, fun q hq => hq.1 (h.alone q p j j hq.2 hp)⟩
    · simp only [hj, false_and, or_false]
      rw [h.used j]
      refine and_congr_right fun _ => and_congr_right fun _ => forall_congr' fun q => not_congr ?_
      refine ⟨fun hq => ⟨fun hqp => hj ?_, hq⟩, fun hq => hq.2⟩
      rw [hqp, hp] at hq
      exact (ReqPhase.adding.inj hq).symm
  · intro m' m'' j hj hj'
    rcases (hmem m' j).mp hj with hj | ⟨hji, hm'⟩
    · rcases (hmem m'' j).mp hj' with hj' | ⟨hji, -⟩
      · exact h.apart m' m'' j hj hj'
      · exact absurd (hji ▸ hj) (hil m')
    · rcases (hmem m'' j).mp hj' with hj' | ⟨-, hm''⟩
      · exact absurd (hji ▸ hj') (hil m'')
      · rw [hm', hm'']
  · exact fun q j hq => h.adding q j ((hadding q j).mp hq).2
  · exact fun q q' j j' hq hq' =>
      h.alone q q' j j' ((hadding q j).mp hq).2 ((hadding q' j').mp hq').2
  · intro b
    exact (iff_of_eq (congrArg (· = true) (hlock b))).trans
      ((h.lock b).trans (exists_congr fun x => (hlocker b x).symm))
  · exact fun b x y hx hy => h.one b x y ((hlocker b x).mp hx) ((hlocker b y).mp hy)
  · exact h.writes
  · intro q' b hq hon
    refine (hlock b).trans ?_
    by_cases hqp : q' = p
    · subst hqp
      rcases hwhere with heq | heq <;> simp [heq, ReqPhase.onBuffer] at hon
    · simp only [Function.update_of_ne hqp] at hon
      exact h.buffers q' b hq hon
  · intro q' j hq hon
    by_cases hqp : q' = p
    · -- it has come from there to `schedule`
      subst hqp
      refine h.pages q' j hq (.inr ?_)
      rcases hwhere with heq | heq
      · obtain rfl : i = j := by simpa [heq] using hon
        exact hp
      · simp [heq] at hon
    · simp only [Function.update_of_ne hqp] at hon
      exact h.pages q' j hq hon

/-- `endRequest`, by the fields that it changes. -/
structure Ended (s s' : Requests P) (m i : ℕ) : Prop where
  current : s'.current = update s.current m (s.next i)
  next : s'.next = s.next
  request : s'.request = update s.request i { s.request i with dev := -1 }
  waiting : s'.waiting = s.waiting
  phase : s'.phase = s.phase
  lock : ∀ b, (s'.buffer b).lock = true ↔ (s.buffer b).lock = true ∧ (s.request i).bh ≠ some b
  asleep : ∀ p, s'.asleep p = true ↔ s.asleep p = true ∧
    (∀ b, (s.request i).bh = some b → (s.phase p).onBuffer b = false) ∧ s.waiting i ≠ some p ∧
    (s.phase p).onRequest = false

omit [DecidableEq P] in
theorem wake_asleep (on : ReqPhase → Bool) :
    (s.wake on).asleep p = true ↔ s.asleep p = true ∧ on (s.phase p) = false := by
  by_cases hon : on (s.phase p) <;> simp [wake, hon]

theorem wakeWaiting_asleep :
    (s.wakeWaiting i).asleep p = true ↔ s.asleep p = true ∧ s.waiting i ≠ some p := by
  rw [wakeWaiting]
  cases hw : s.waiting i with
  | none => simp
  | some q =>
    by_cases hq : p = q
    · subst hq
      simp
    · simp [hq, Ne.symm hq]

omit [DecidableEq P] in
theorem endBuffer_asleep (bh : Option ℕ) (uptodate : Bool) :
    (s.endBuffer bh uptodate).asleep p = true ↔
      s.asleep p = true ∧ ∀ b, bh = some b → (s.phase p).onBuffer b = false := by
  cases bh with
  | none => cases uptodate <;> simp [endBuffer]
  | some b =>
    rw [endBuffer, unlockBuffer, wake_asleep]
    simp [setLock]

omit [DecidableEq P] in
theorem endBuffer_lock (bh : Option ℕ) (uptodate : Bool) :
    ((s.endBuffer bh uptodate).buffer b).lock = true ↔
      (s.buffer b).lock = true ∧ bh ≠ some b := by
  cases bh with
  | none => cases uptodate <;> simp [endBuffer]
  | some b' =>
    by_cases hb : b = b'
    · subst hb
      simp [endBuffer, unlockBuffer, wake, setLock]
    · simp [endBuffer, unlockBuffer, wake, setLock, hb, Ne.symm hb]

omit [DecidableEq P] in
/-- What the `bh` part leaves. -/
theorem endBuffer_frame (bh : Option ℕ) (uptodate : Bool) :
    (s.endBuffer bh uptodate).current = s.current ∧ (s.endBuffer bh uptodate).next = s.next ∧
      (s.endBuffer bh uptodate).request = s.request ∧
      (s.endBuffer bh uptodate).waiting = s.waiting ∧ (s.endBuffer bh uptodate).phase = s.phase ∧
      (uptodate = true ∨ bh ≠ none → (s.endBuffer bh uptodate).nulls = s.nulls) := by
  cases bh with
  | none => cases uptodate <;> simp [endBuffer]
  | some b => simp [endBuffer, unlockBuffer, wake, setLock]

theorem wakeWaiting_frame : s.wakeWaiting i = { s with asleep := (s.wakeWaiting i).asleep } := by
  rw [wakeWaiting]
  cases s.waiting i <;> rfl

theorem endRequest_cases {uptodate : Bool} (h : s.endRequest m uptodate = some s') :
    ∃ i, s.current m = some i ∧ s.Ended s' m i ∧
      (uptodate = true ∨ (s.request i).bh ≠ none → s'.nulls = s.nulls) := by
  obtain ⟨i, hi, rfl⟩ := Option.map_eq_some_iff.mp h
  obtain ⟨hcurrent, hnext, hrequest, hwaiting, hphase, hnulls⟩ :=
    s.endBuffer_frame (s.request i).bh uptodate
  dsimp only
  rw [wakeWaiting_frame]
  refine ⟨i, hi, ⟨by simp only [wake, hcurrent, hnext], hnext, by simp only [wake, hrequest],
    hwaiting, hphase, fun b => endBuffer_lock _ _, fun p => ?_⟩, hnulls⟩
  show (wake _ _).asleep p = true ↔ _
  rw [wake_asleep]
  show (wakeWaiting _ _).asleep p = true ∧ _ ↔ _
  rw [wakeWaiting_asleep, endBuffer_asleep, hwaiting]
  simp only [hphase, and_assoc]

omit [DecidableEq P] in
/-- The request at the head of a queue ends. -/
theorem Inv.ended (h : s.Inv l) (hm : s.current m = some i) (he : s.Ended s' m i) :
    ∃ l', s'.Inv l' := by
  have hlist := h.list m
  rw [hm] at hlist
  obtain ⟨rest, hl⟩ : ∃ rest, l m = i :: rest := by
    cases hl : l m with
    | nil =>
      rw [hl] at hlist
      cases hlist
    | cons j rest =>
      rw [hl] at hlist
      obtain rfl := Option.some.inj hlist.1
      exact ⟨rest, rfl⟩
  rw [hl] at hlist
  have hil : i ∈ l m := hl ▸ List.mem_cons_self
  have hirest : i ∉ rest := by
    have hnodup := (h.list m).nodup
    rw [hl] at hnodup
    exact (List.nodup_cons.mp hnodup).1
  have hadding : ∀ p, s.phase p ≠ .adding i := ((h.used i).mp ⟨m, hil⟩).2.2
  have hreq : ∀ j, j ≠ i → s'.request j = s.request j := fun j hj => by
    rw [he.request, Function.update_of_ne hj]
  have hdev : (s'.request i).dev = -1 := by rw [he.request, Function.update_self]
  have hmem : ∀ m' j, j ∈ update l m rest m' ↔ j ∈ l m' ∧ j ≠ i := by
    intro m' j
    by_cases hm' : m' = m
    · subst hm'
      rw [Function.update_self, hl, List.mem_cons]
      refine ⟨fun hj => ⟨.inr hj, ne_of_mem_of_not_mem hj hirest⟩, fun hj => ?_⟩
      exact hj.1.resolve_left hj.2
    · rw [Function.update_of_ne hm']
      refine ⟨fun hj => ⟨hj, fun hji => hm' ?_⟩, fun hj => hj.1⟩
      exact h.apart m' m i (hji ▸ hj) hil
  have hlocker : ∀ b x, s'.Locker b x ↔ s.Locker b x ∧ x ≠ .inl i := fun b x => by
    cases x with
    | inl j =>
      by_cases hj : j = i
      · subst hj
        simp [Locker, Names, hdev]
      · simp [Locker, Names, hreq j hj, hj]
    | inr q => simp [Locker, Holds, he.phase]
  refine ⟨update l m rest, ?_⟩
  constructor
  · intro m'
    rw [he.next, he.current]
    by_cases hm' : m' = m
    · subst hm'
      simpa using hlist.2
    · simpa only [Function.update_of_ne hm'] using h.list m'
  · intro j
    simp only [hmem, exists_and_right, h.used j, he.phase]
    by_cases hj : j = i
    · subst hj
      simp [hdev]
    · simp [hreq j hj, hj]
  · exact fun m' m'' j hj hj' => h.apart m' m'' j ((hmem m' j).mp hj).1 ((hmem m'' j).mp hj').1
  · intro p j hp
    rw [he.phase] at hp
    have hj : j ≠ i := fun hj => hadding p (hj ▸ hp)
    rw [hreq j hj]
    exact h.adding p j hp
  · intro p p' j j' hp hp'
    rw [he.phase] at hp hp'
    exact h.alone p p' j j' hp hp'
  · intro b
    rw [he.lock b, h.lock b]
    simp only [hlocker]
    constructor
    · rintro ⟨⟨x, hx⟩, hbh⟩
      exact ⟨x, hx, fun hxi => hbh (hxi ▸ hx : s.Locker b (.inl i)).2.2⟩
    · rintro ⟨x, hx, hxi⟩
      refine ⟨⟨x, hx⟩, fun hbh => hxi ?_⟩
      have hused := (h.used i).mp ⟨m, hil⟩
      exact h.one b x (.inl i) hx ⟨hused.1, hused.2.1, hbh⟩
  · exact fun b x y hx hy => h.one b x y ((hlocker b x).mp hx).1 ((hlocker b y).mp hy).1
  · intro j hj hdev' hcmd
    have hji : j ≠ i := fun hji => by
      rw [hji, hdev] at hdev'
      omega
    rw [hreq j hji] at hdev' hcmd ⊢
    exact h.writes j hj hdev' hcmd
  · intro p b hp hon
    obtain ⟨hp, hbh, -, -⟩ := (he.asleep p).mp hp
    rw [he.phase] at hon
    refine (he.lock b).mpr ⟨h.buffers p b hp hon, fun heq => ?_⟩
    rw [hbh b heq] at hon
    cases hon
  · intro p j hp hio
    obtain ⟨hp, -, hwait, -⟩ := (he.asleep p).mp hp
    rw [he.phase] at hio
    obtain ⟨hdev', hbh, hpj⟩ := h.pages p j hp hio
    have hji : j ≠ i := fun hji => hwait (hji ▸ hpj)
    rw [hreq j hji, he.waiting]
    exact ⟨hdev', hbh, hpj⟩

/-! ### The runs -/

omit [DecidableEq P] in
theorem Inv.cache (h : s.Inv l) (uptodate dirt : Bool) :
    ({ s with buffer := update s.buffer b { s.buffer b with
      uptodate := uptodate, dirt := dirt } } : Requests P).Inv l := by
  have hlock : ∀ b', (update s.buffer b { s.buffer b with uptodate := uptodate, dirt := dirt }
      b').lock = (s.buffer b').lock := fun b' => by
    by_cases hb : b' = b
    · subst hb
      simp
    · rw [Function.update_of_ne hb]
  exact { h with
    lock := fun b' => by rw [hlock]; exact h.lock b'
    buffers := fun p b' hp hon => by rw [hlock]; exact h.buffers p b' hp hon }

theorem Inv.go (h : s.Inv l) (hcall : ∀ q i, s.phase q = .adding i → q = p)
    (hs : s.go p = some s') : ∃ l', s'.Inv l' := by
  have hnone : (∀ i, s.phase p ≠ .adding i) → ∀ q j, s.phase q ≠ .adding j :=
    fun hp q j hq => hp j (hcall q j hq ▸ hq)
  rw [Requests.go] at hs
  split at hs
  case h_1 => cases hs
  case h_2 i hp =>
    obtain ⟨s₁, l', hadd, hinv⟩ := h.addRequest hp
    rw [hadd] at hs
    cases hs
    exact ⟨l', hinv⟩
  -- the process has been woken
  all_goals
    replace hs := (Option.ite_none_left_eq_some.mp hs).2
    refine ⟨l, Option.some.inj hs ▸ ?_⟩
  case h_3 hp =>
    have hplain : Plain (s.phase p) := hp ▸ ⟨by simp, by simp⟩
    exact h.lockBuffer (hnone hplain.1) hplain
  case h_4 hp => exact h.seekSlot (hnone (by simp [hp])) hp
  case h_5 hp =>
    have hplain : Plain (s.phase p) := hp ▸ ⟨by simp, by simp⟩
    exact h.seekPage (hnone hplain.1) hplain
  case h_6 hp => exact h.setPhase (hp ▸ ⟨by simp, by simp⟩) plain_idle (by simp) (by simp)
  case h_7 hp => exact h.waitOnBuffer (hp ▸ ⟨by simp, by simp⟩)

theorem Inv.step {driver : ℕ → Bool} {e : ReqEvent P} (h : s.Inv l) (hcall : s.Called e)
    (hs : s.step driver e = some s') : ∃ l', s'.Inv l' := by
  have hidle : ∀ p, e.process = some p → s.phase p = .idle → ∀ q j, s.phase q ≠ .adding j :=
    fun p hp hphase q j hq => by
      rw [hcall p hp q j hq, hphase] at hq
      cases hq
  cases e with
  | block p rw dev blocknr b =>
    obtain ⟨hphase, hs⟩ := Option.ite_none_right_eq_some.mp hs
    rw [makeRequest] at hs
    split at hs
    · cases hs
      exact ⟨l, h⟩
    split at hs
    · cases hs
    split at hs
    · cases hs
      exact ⟨l, h⟩
    cases hs
    exact ⟨l, h.lockBuffer (hidle p rfl hphase) (hphase ▸ plain_idle)⟩
  | paging p rw dev page =>
    obtain ⟨hphase, hs⟩ := Option.ite_none_right_eq_some.mp hs
    rw [llRwPage] at hs
    split at hs
    · cases hs
      exact ⟨l, h⟩
    split at hs
    · cases hs
    cases hs
    exact ⟨l, h.seekPage (hidle p rfl hphase) (hphase ▸ plain_idle)⟩
  | wait p b =>
    obtain ⟨hphase, hs⟩ := Option.ite_none_right_eq_some.mp hs
    cases hs
    exact ⟨l, h.waitOnBuffer (hphase ▸ plain_idle)⟩
  | go p => exact h.go (hcall p rfl) hs
  | finish m uptodate =>
    obtain ⟨i, hm, he, -⟩ := endRequest_cases hs
    exact h.ended hm he
  | cache b uptodate dirt =>
    cases hs
    exact ⟨l, h.cache uptodate dirt⟩

omit [DecidableEq P] in
theorem Start.not_locker (h : s.Start) (x : ℕ ⊕ P) : ¬ s.Locker b x := by
  rcases x with i | p
  · rintro ⟨hi, hdev, -⟩
    rw [h.free i hi] at hdev
    omega
  · rintro ⟨cmd, dev, blocknr, hp⟩
    rw [h.idle p] at hp
    cases hp

omit [DecidableEq P] in
theorem Start.inv (h : s.Start) : s.Inv fun _ => [] where
  list := h.current
  used := fun i => by
    refine iff_of_false (fun ⟨m, hi⟩ => absurd hi List.not_mem_nil) fun ⟨hi, hdev, _⟩ => ?_
    rw [h.free i hi] at hdev
    omega
  apart := fun m m' i hi => absurd hi List.not_mem_nil
  adding := fun p i hp => by
    rw [h.idle p] at hp
    cases hp
  alone := fun p p' i i' hp => by
    rw [h.idle p] at hp
    cases hp
  lock := fun b => by
    rw [h.unlocked b]
    exact iff_of_false (by simp) fun ⟨x, hx⟩ => h.not_locker x hx
  one := fun b x y hx => absurd hx (h.not_locker x)
  writes := fun i hi hdev => by
    rw [h.free i hi] at hdev
    omega
  buffers := fun p b hp hon => by
    rw [h.idle p] at hon
    cases hon
  pages := fun p i hp hio => by
    rw [h.idle p] at hio
    simp at hio

end Requests

/-- After `blk_dev_init`, with two processes, and every buffer dirty. -/
def Requests.boot : Requests Bool where
  request := fun _ => ⟨-1, 0, 0, none⟩
  waiting := fun _ => none
  next := fun _ => none
  current := fun _ => none
  buffer := fun _ => ⟨false, true, false⟩
  phase := fun _ => .idle
  asleep := fun _ => false
  nulls := 0

theorem Requests.start_boot : Requests.boot.Start :=
  ⟨fun _ _ => rfl, fun _ => rfl, fun _ => rfl, fun _ => rfl, rfl⟩

/-- There is a driver for the hard disk. -/
def diskDriver (m : ℕ) : Bool := m == 3

/-- The process is between its store to `dev` and `add_request`. -/
def ReqPhase.isAdding : ReqPhase → Bool
  | .adding _ => true
  | _ => false

instance (s : Requests Bool) (e : ReqEvent Bool) : Decidable (s.Called e) :=
  decidable_of_iff (∀ p ∈ e.process, ∀ q, (s.phase q).isAdding = true → q = p) <| by
    refine forall₂_congr fun p _ => forall_congr' fun q => ⟨fun h i hi => ?_, fun h hq => ?_⟩
    · exact h (by rw [hi]; rfl)
    · cases hphase : s.phase q with
      | adding i => exact h i hphase
      | _ => simp [hphase, ReqPhase.isAdding] at hq

/-- The state after the steps. -/
def Requests.run (es : List (ReqEvent Bool)) : Option (Requests Bool) :=
  System.runOf (System.guarded Requests.Called (Requests.step diskDriver)) es .boot

end Blk
