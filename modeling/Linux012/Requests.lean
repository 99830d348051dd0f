/-
The request queue of a block device (`add_request` and its callers in
kernel/blk_drv/ll_rw_blk.c, `end_request` of kernel/blk_drv/blk.h).

* `Request`, `Queue` — the request array, the queue of a device through `next`,
  and the buffers that the requests lock;
* `addRequest` — the insertion, with its two rules in one loop;
* `request_order` — the queue holds the requests added and not ended, each once,
  and paging requests come first and in order, as long as no block request is put
  before a paging request by the elevator test;
* `request_order_lost` — a page-in that is served before the page-out of its slot.

Design notes: one device and its queue.  A driver that is at work on the current
request moves its sector on, between two interrupts.
-/
import Linux012.Runs
import Linux012.Links
import Mathlib.Algebra.Ring.Nat
import Mathlib.Data.Int.Notation
import Mathlib.Data.List.Chain
import Mathlib.Data.List.Nodup
import Mathlib.Data.List.Perm.Subperm

namespace Blk

open Function (update)
open Links (IsList Seg)

/-- `NR_REQUEST`. -/
def nrRequest : ℕ := 32

/-- `READ`, `WRITE`, `READA` and `WRITEA` of include/linux/fs.h. -/
def read : ℕ := 0
def write : ℕ := 1
def readA : ℕ := 2
def writeA : ℕ := 3

/-- The command of a request made with `rw`. -/
def command (rw : ℕ) : ℕ := if rw = readA then read else if rw = writeA then write else rw

/-- `struct request`; `dev` is negative in a free one. -/
structure Request where
  dev : ℤ
  cmd : ℕ
  sector : ℕ
  /-- the buffer head, none in a paging request -/
  bh : Option ℕ
  deriving DecidableEq

/-- The flags of a buffer head. -/
structure Buffer where
  uptodate : Bool
  dirt : Bool
  lock : Bool
  deriving DecidableEq

/-- The requests of a device. -/
structure Queue where
  request : ℕ → Request
  next : ℕ → Option ℕ
  /-- `current_request` -/
  current : Option ℕ
  buffer : ℕ → Buffer
  /-- the requests added and not ended, in the order of their addition, with their
  contents at that time (not in the source) -/
  live : List (ℕ × Request)

/-- `IN_ORDER`. -/
def inOrder (s₁ s₂ : Request) : Bool :=
  decide (s₁.cmd < s₂.cmd ∨ s₁.cmd = s₂.cmd ∧
    (s₁.dev < s₂.dev ∨ s₁.dev = s₂.dev ∧ s₁.sector < s₂.sector))

/-- The loop of `add_request` stops at `tmp`, with `next` after it. -/
def stops (tmp req next : Request) : Bool :=
  if req.bh.isNone then next.bh.isSome
  else (inOrder tmp req || !inOrder tmp next) && inOrder req next

namespace Queue

/-- `req->next = tmp->next; tmp->next = req`. -/
def insertAfter (q : Queue) (tmp req : ℕ) : Queue :=
  { q with next := update (update q.next req (q.next tmp)) tmp (some req) }

/-- The loop of `add_request`, from `tmp` on. -/
def addLoop (q : Queue) (req : ℕ) : ℕ → ℕ → Option Queue
  | 0, _ => none
  | fuel + 1, tmp =>
    match q.next tmp with
    | none => some (q.insertAfter tmp req)
    | some n =>
      if stops (q.request tmp) (q.request req) (q.request n) then some (q.insertAfter tmp req)
      else q.addLoop req fuel n

/-- `req->bh->b_dirt = 0`, where there is a buffer. -/
def clearDirt (q : Queue) (req : ℕ) : Queue :=
  match (q.request req).bh with
  | none => q
  | some b => { q with buffer := update q.buffer b { q.buffer b with dirt := false } }

/-- `add_request`; a request function that is started here ends requests later. -/
def addRequest (q : Queue) (req : ℕ) : Option Queue :=
  let q := { q with next := update q.next req none }.clearDirt req
  match q.current with
  | none => some { q with current := some req }
  | some tmp => q.addLoop req (nrRequest + 1) tmp

/-- The search for an empty request from slot `n` down. -/
def findRequest (q : Queue) : ℕ → Option ℕ
  | 0 => none
  | n + 1 => if (q.request n).dev < 0 then some n else q.findRequest n

/-- The request `r` is filled in and added. -/
def fill (q : Queue) (i : ℕ) (r : Request) : Option Queue :=
  { q with request := update q.request i r, live := q.live ++ [(i, r)] }.addRequest i

/-- Nothing to do: a write of a clean buffer, or a read of a valid one. -/
def Idle (q : Queue) (cmd b : ℕ) : Prop :=
  cmd = write ∧ (q.buffer b).dirt = false ∨ cmd = read ∧ (q.buffer b).uptodate = true

instance (q : Queue) (cmd b : ℕ) : Decidable (q.Idle cmd b) := inferInstanceAs (Decidable (_ ∨ _))

/-- The last slot, plus one, that `make_request` looks at. -/
def lastSlot (cmd : ℕ) : ℕ := if cmd = read then nrRequest else nrRequest * 2 / 3

/-- `make_request` for the buffer `b`, unless it panics, or sleeps for the buffer or
for a request. -/
def makeRequest (q : Queue) (rw dev blocknr b : ℕ) : Option Queue :=
  if writeA < rw then none
  else if (q.buffer b).lock then if readA ≤ rw then some q else none
  else if q.Idle (command rw) b then some q
  else match q.findRequest (lastSlot (command rw)) with
    | none => if readA ≤ rw then some q else none
    | some i => { q with buffer := update q.buffer b { q.buffer b with lock := true } }.fill i
      ⟨dev, command rw, (blocknr <<< 1) % 2 ^ 32, some b⟩

/-- `ll_rw_page`, unless it sleeps for a request. -/
def llRwPage (q : Queue) (cmd dev page : ℕ) : Option Queue :=
  (q.findRequest nrRequest).bind fun i => q.fill i ⟨dev, cmd, (page <<< 3) % 2 ^ 32, none⟩

/-- `end_request`. -/
def endRequest (q : Queue) (uptodate : Bool) : Option Queue :=
  q.current.map fun i => { q with
    request := update q.request i { q.request i with dev := -1 }
    current := q.next i
    buffer := match (q.request i).bh with
      | none => q.buffer
      | some b => update q.buffer b { q.buffer b with uptodate := uptodate, lock := false }
    live := q.live.filter fun e => e.1 ≠ i }

/-- The driver has moved one sector of the current request. -/
def nextSector (q : Queue) : Option Queue :=
  q.current.map fun i => { q with
    request := update q.request i { q.request i with sector := ((q.request i).sector + 1) % 2 ^ 32 } }

/-- After `blk_dev_init`. -/
def start (q : Queue) : Prop :=
  (∀ i, i < nrRequest → (q.request i).dev = -1) ∧ q.current = none ∧ q.live = []

end Queue

/-- A step of the queue. -/
inductive Event where
  | block (rw dev blocknr b : ℕ)
  | paging (cmd dev page : ℕ)
  | sector
  | finish (uptodate : Bool)

/-- The queue after a step. -/
def Queue.step (q : Queue) : Event → Option Queue
  | .block rw dev blocknr b => q.makeRequest rw dev blocknr b
  | .paging cmd dev page => q.llRwPage cmd dev page
  | .sector => q.nextSector
  | .finish uptodate => q.endRequest uptodate

/-- The runs of the queue. -/
def queue : System Queue Event where
  init q := q.start
  step q e q' := q.step e = some q'

/-- `make_request` adds a request. -/
def Queue.Adds (q : Queue) (rw b : ℕ) : Prop :=
  rw ≤ writeA ∧ (q.buffer b).lock = false ∧ ¬ q.Idle (command rw) b ∧
    (q.findRequest (lastSlot (command rw))).isSome

/-- The elevator test puts the request of a block before no paging request. -/
def Event.Guard (q : Queue) : Event → Prop
  | .block rw dev blocknr b => q.Adds rw b → ∀ tmp n, tmp < nrRequest →
      0 ≤ (q.request tmp).dev → q.next tmp = some n → (q.request n).bh = none →
      stops (q.request tmp) ⟨dev, command rw, (blocknr <<< 1) % 2 ^ 32, some b⟩ (q.request n) = false
  | _ => True

/-- A paging request. -/
def Queue.paging (q : Queue) (i : ℕ) : Bool := (q.request i).bh.isNone

/-- The queue holds the requests that were added and have not ended, each once. -/
def Queue.Exact (q : Queue) : Prop :=
  ∃ l, IsList q.next q.current l ∧ l.Nodup ∧ l.Perm (q.live.map Prod.fst) ∧
    ∀ e ∈ q.live, 0 ≤ (q.request e.1).dev ∧ (q.request e.1).dev = e.2.dev ∧
      (q.request e.1).cmd = e.2.cmd ∧ (q.request e.1).bh = e.2.bh ∧
      (q.current ≠ some e.1 → (q.request e.1).sector = e.2.sector)

/-- Behind the current request the paging requests come first, and all paging
requests are in the order of their addition. -/
def Queue.PagingFirst (q : Queue) : Prop :=
  ∀ l, IsList q.next q.current l →
    l.tail.Pairwise (fun i j => q.paging j = true → q.paging i = true) ∧
      l.filter q.paging = (q.live.filter fun e => e.2.bh.isNone).map Prod.fst

/-! ### One insertion -/

namespace Queue

variable {q q' : Queue} {i tmp x : ℕ} {r : Request} {l l₁ l₂ : List ℕ}

@[simp] theorem clearDirt_next : (q.clearDirt i).next = q.next := by
  rw [clearDirt]
  split <;> rfl

@[simp] theorem clearDirt_request : (q.clearDirt i).request = q.request := by
  rw [clearDirt]
  split <;> rfl

@[simp] theorem clearDirt_current : (q.clearDirt i).current = q.current := by
  rw [clearDirt]
  split <;> rfl

@[simp] theorem clearDirt_live : (q.clearDirt i).live = q.live := by
  rw [clearDirt]
  split <;> rfl

/-- The loop goes over requests that do not stop it, and inserts before one that does. -/
theorem addLoop_spec {fuel : ℕ} {rest : List ℕ} (h : IsList q.next (q.next tmp) rest)
    (hfuel : rest.length < fuel) :
    ∃ pre post, tmp :: rest = pre ++ post ∧
      (∃ x, pre.getLast? = some x ∧ q.addLoop i fuel tmp = some (q.insertAfter x i) ∧
        ∀ z ∈ post.head?, stops (q.request x) (q.request i) (q.request z) = true) ∧
      pre.IsChain fun y z => stops (q.request y) (q.request i) (q.request z) = false := by
  induction fuel generalizing tmp rest with
  | zero => omega
  | succ fuel ih =>
    cases rest with
    | nil =>
      have hnone : q.next tmp = none := h
      exact ⟨[tmp], [], rfl, ⟨tmp, rfl, by rw [addLoop, hnone], by simp⟩, by simp⟩
    | cons n rest =>
      obtain ⟨hn, hrest⟩ := h
      by_cases hs : stops (q.request tmp) (q.request i) (q.request n)
      · refine ⟨[tmp], n :: rest, rfl, ⟨tmp, rfl, by rw [addLoop, hn]; exact if_pos hs, ?_⟩, by simp⟩
        simpa using hs
      · rw [List.length_cons] at hfuel
        obtain ⟨pre, post, heq, ⟨x, hx, hadd, hstop⟩, hchain⟩ := ih hrest (by omega)
        refine ⟨tmp :: pre, post, by rw [heq, List.cons_append], ⟨x, ?_, ?_, hstop⟩, ?_⟩
        · cases pre with
          | nil => cases hx
          | cons y pre => simpa using hx
        · rw [addLoop, hn]
          exact (if_neg hs).trans hadd
        · cases pre with
          | nil => cases hx
          | cons y pre =>
            obtain rfl : n = y := (List.cons.inj heq).1
            rw [List.isChain_cons_cons]
            exact ⟨by simpa using hs, hchain⟩

/-- What the queue is, as the list `l`. -/
structure Kept (q : Queue) (l : List ℕ) : Prop where
  list : IsList q.next q.current l
  used : ∀ i, i ∈ l ↔ i < nrRequest ∧ 0 ≤ (q.request i).dev
  perm : l.Perm (q.live.map Prod.fst)
  same : ∀ e ∈ q.live, (q.request e.1).dev = e.2.dev ∧ (q.request e.1).cmd = e.2.cmd ∧
    (q.request e.1).bh = e.2.bh ∧ (q.current ≠ some e.1 → (q.request e.1).sector = e.2.sector)

/-- There is room for the whole array in the fuel of the loop. -/
theorem Kept.length_le (h : q.Kept l) : l.length ≤ nrRequest := by
  have hsub : l ⊆ List.range nrRequest := fun i hi =>
    List.mem_range.mpr ((h.used i).mp hi).1
  simpa using (h.list.nodup.subperm hsub).length_le

theorem Kept.exact (h : q.Kept l) : q.Exact := by
  refine ⟨l, h.list, h.list.nodup, h.perm, fun e he => ⟨?_, h.same e he⟩⟩
  have hmem : e.1 ∈ l := h.perm.mem_iff.mpr (List.mem_map_of_mem he)
  exact ((h.used e.1).mp hmem).2

theorem Kept.start (h : q.start) : q.Kept [] := by
  obtain ⟨hfree, hcur, hlive⟩ := h
  constructor
  · exact hcur
  · intro i
    refine ⟨fun hi => absurd hi List.not_mem_nil, fun ⟨hi, hdev⟩ => ?_⟩
    rw [hfree i hi] at hdev
    omega
  · rw [hlive]
    exact List.Perm.nil
  · rw [hlive]
    exact fun e he => by cases he

theorem Kept.of_buffer (h : q.Kept l) (buffer : ℕ → Buffer) :
    ({ q with buffer := buffer } : Queue).Kept l :=
  ⟨h.list, h.used, h.perm, h.same⟩

/-- `add_request` inserts the request at one place, behind the current one. -/
theorem addRequest_spec (h : IsList q.next q.current l) (hil : i ∉ l)
    (hlen : l.length ≤ nrRequest) : ∃ q' l₁ l₂, q.addRequest i = some q' ∧ l = l₁ ++ l₂ ∧
      (l₁ = [] → l = []) ∧ IsList q'.next q'.current (l₁ ++ i :: l₂) ∧
      (∀ j ∉ i :: l, q'.next j = q.next j) ∧ q'.request = q.request ∧
      q'.buffer = (q.clearDirt i).buffer ∧ q'.live = q.live ∧
      (l₁.IsChain fun y z => stops (q.request y) (q.request i) (q.request z) = false) ∧
      ∀ x ∈ l₁.getLast?, ∀ z ∈ l₂.head?,
        stops (q.request x) (q.request i) (q.request z) = true := by
  set q₀ : Queue := ({ q with next := update q.next i none } : Queue).clearDirt i with hq₀
  have hnext₀ : q₀.next = update q.next i none := by simp [hq₀]
  have hreq₀ : q₀.request = q.request := by simp [hq₀]
  have hcur₀ : q₀.current = q.current := by simp [hq₀]
  have hlive₀ : q₀.live = q.live := by simp [hq₀]
  have hbuf₀ : q₀.buffer = (q.clearDirt i).buffer := by
    simp only [hq₀, clearDirt]
    cases (q.request i).bh <;> rfl
  have hlist : IsList q₀.next q.current l := by
    rw [hnext₀]
    exact h.update hil _
  have hout : ∀ j ∉ i :: l, q₀.next j = q.next j := fun j hj => by
    rw [List.mem_cons, not_or] at hj
    rw [hnext₀, Function.update_of_ne hj.1]
  cases l with
  | nil =>
    have hcur : q.current = none := hlist
    refine ⟨{ q₀ with current := some i }, [], [], ?_, rfl, fun _ => rfl, ?_, hout, hreq₀, hbuf₀,
      hlive₀, by simp, by simp⟩
    · rw [addRequest, ← hq₀, hcur₀, hcur]
    · simp [hnext₀]
  | cons tmp rest =>
    have hcur : q.current = some tmp := hlist.1
    rw [List.length_cons] at hlen
    obtain ⟨pre, post, heq, ⟨x, hx, hadd, hstop⟩, hchain⟩ :=
      addLoop_spec (i := i) hlist.2 (Nat.lt_succ_of_lt hlen)
    rw [hreq₀] at hchain hstop
    obtain ⟨pre', rfl⟩ := List.getLast?_eq_some_iff.mp hx
    refine ⟨q₀.insertAfter x i, pre' ++ [x], post, ?_, heq, by simp, ?_, fun j hj => ?_, hreq₀,
      hbuf₀, hlive₀, hchain, ?_⟩
    · rw [addRequest, ← hq₀, hcur₀, hcur]
      exact hadd
    · simp only [insertAfter, hcur₀, List.append_assoc, List.singleton_append]
      have hlist₀ : IsList q₀.next q.current (pre' ++ x :: post) := by
        rw [List.append_cons, ← heq]
        exact hlist
      refine hlist₀.insert fun hmem => hil ?_
      rwa [heq, ← List.append_cons]
    · have hxl : x ∈ tmp :: rest := by simp [heq]
      have hjx : j ≠ x := fun hjx => hj (hjx ▸ List.mem_cons_of_mem _ hxl)
      have hji : j ≠ i := fun hji => hj (hji ▸ List.mem_cons_self)
      simp only [insertAfter, Function.update_of_ne hjx, Function.update_of_ne hji]
      exact hout j hj
    · intro y hy z hz
      rw [hx] at hy
      obtain rfl := Option.some.inj hy
      exact hstop z hz

/-- The queue with the new request. -/
theorem Kept.fill (h : q.Kept l) (hi : i < nrRequest) (hfree : (q.request i).dev < 0)
    (hr : 0 ≤ r.dev) : ∃ q' l₁ l₂, q.fill i r = some q' ∧ l = l₁ ++ l₂ ∧
      q'.Kept (l₁ ++ i :: l₂) ∧ (l₁ = [] → l = []) ∧ q'.request = update q.request i r ∧
      q'.live = q.live ++ [(i, r)] ∧
      (l₁.IsChain fun y z => stops (q.request y) r (q.request z) = false) ∧
      ∀ x ∈ l₁.getLast?, ∀ z ∈ l₂.head?, stops (q.request x) r (q.request z) = true := by
  have hil : i ∉ l := fun hmem => by
    have hdev := ((h.used i).mp hmem).2
    omega
  have hne : ∀ y ∈ l, update q.request i r y = q.request y := fun y hy =>
    Function.update_of_ne (ne_of_mem_of_not_mem hy hil) _ _
  obtain ⟨q', l₁, l₂, hadd, rfl, hnil, hlist, -, hreq, -, hlive, hchain, hstop⟩ :=
    addRequest_spec (q := { q with request := update q.request i r, live := q.live ++ [(i, r)] })
      h.list hil h.length_le
  replace hreq : q'.request = update q.request i r := hreq
  simp only [Function.update_self] at hchain hstop
  refine ⟨q', l₁, l₂, hadd, rfl, ?_, hnil, hreq, hlive, ?_, ?_⟩
  · have hmem : ∀ j, j ∈ l₁ ++ i :: l₂ ↔ j = i ∨ j ∈ l₁ ++ l₂ := fun j => by
      rw [List.perm_middle.mem_iff, List.mem_cons]
    constructor
    · exact hlist
    · intro j
      rw [hmem, hreq]
      by_cases hj : j = i
      · subst hj
        simp [hi, hr]
      · rw [Function.update_of_ne hj, ← h.used j]
        simp [hj]
    · rw [hlive, List.map_append]
      exact (List.perm_middle.trans (h.perm.cons i)).trans (List.perm_append_singleton i _).symm
    · intro e he
      rw [hlive, List.mem_append, List.mem_singleton] at he
      rw [hreq]
      cases he with
      | inr he =>
        subst he
        simp
      | inl he =>
        have hel : e.1 ∈ l₁ ++ l₂ := h.perm.mem_iff.mpr (List.mem_map_of_mem he)
        rw [hne e.1 hel]
        obtain ⟨hdev, hcmd, hbh, hsec⟩ := h.same e he
        refine ⟨hdev, hcmd, hbh, fun hcur => hsec fun hold => hcur ?_⟩
        -- the current request stays the current one
        have hold' := h.list
        cases l₁ with
        | nil => rw [hnil rfl] at hel; cases hel
        | cons y l₁ => rw [hlist.1, ← hold, hold'.1]
  · refine hchain.imp_of_mem_imp fun y z hy hz hs => ?_
    rwa [hne y (List.mem_append_left _ hy), hne z (List.mem_append_left _ hz)] at hs
  · intro x hx z hz
    have hs := hstop x hx z hz
    rwa [hne x (List.mem_append_left _ (List.mem_of_getLast? hx)),
      hne z (List.mem_append_right _ (List.mem_of_mem_head? hz))] at hs

theorem findRequest_spec {n : ℕ} (h : q.findRequest n = some i) :
    i < n ∧ (q.request i).dev < 0 := by
  induction n with
  | zero => cases h
  | succ n ih =>
    rw [findRequest] at h
    split at h
    case isTrue hfree =>
      obtain rfl := Option.some.inj h
      exact ⟨by omega, hfree⟩
    case isFalse =>
      obtain ⟨hlt, hfree⟩ := ih h
      exact ⟨by omega, hfree⟩

theorem lastSlot_le (cmd : ℕ) : lastSlot cmd ≤ nrRequest := by
  rw [lastSlot, nrRequest]
  split <;> omega

/-- `make_request` changes nothing, or adds a request. -/
theorem makeRequest_cases {rw dev blocknr b : ℕ}
    (h : q.makeRequest rw dev blocknr b = some q') :
    q' = q ∧ ¬ q.Adds rw b ∨ q.Adds rw b ∧ ∃ i, i < nrRequest ∧ (q.request i).dev < 0 ∧
      { q with buffer := update q.buffer b { q.buffer b with lock := true } }.fill i
        ⟨dev, command rw, (blocknr <<< 1) % 2 ^ 32, some b⟩ = some q' := by
  rw [makeRequest] at h
  split at h
  case isTrue => cases h
  case isFalse hrw =>
    split at h
    case isTrue hlock =>
      split at h
      case isTrue =>
        cases h
        exact .inl ⟨rfl, fun hadds => by simp [hadds.2.1] at hlock⟩
      case isFalse => cases h
    case isFalse hlock =>
      split at h
      case isTrue hidle =>
        cases h
        exact .inl ⟨rfl, fun hadds => hadds.2.2.1 hidle⟩
      case isFalse hidle =>
        split at h
        case h_1 hfind =>
          split at h
          case isTrue =>
            cases h
            exact .inl ⟨rfl, fun hadds => by simpa [hfind] using hadds.2.2.2⟩
          case isFalse => cases h
        case h_2 i hfind =>
          obtain ⟨hlt, hfree⟩ := findRequest_spec hfind
          refine .inr ⟨⟨by omega, by simpa using hlock, hidle, by simp [hfind]⟩, i, ?_, hfree, h⟩
          exact hlt.trans_le (lastSlot_le _)

theorem llRwPage_cases {cmd dev page : ℕ} (h : q.llRwPage cmd dev page = some q') :
    ∃ i, i < nrRequest ∧ (q.request i).dev < 0 ∧
      q.fill i ⟨dev, cmd, (page <<< 3) % 2 ^ 32, none⟩ = some q' := by
  obtain ⟨i, hfind, hfill⟩ := Option.bind_eq_some_iff.mp h
  obtain ⟨hlt, hfree⟩ := findRequest_spec hfind
  exact ⟨i, hlt, hfree, hfill⟩

/-- `end_request` removes the current request. -/
theorem Kept.finish {uptodate : Bool} (h : q.Kept l) (hs : q.endRequest uptodate = some q') :
    ∃ i l', l = i :: l' ∧ q'.Kept l' ∧ (∀ j ∈ l', q'.request j = q.request j) ∧
      q'.live = q.live.filter fun e => e.1 ≠ i := by
  obtain ⟨i, hcur, rfl⟩ := Option.map_eq_some_iff.mp hs
  have hlist := h.list
  have hnodup := h.list.nodup
  cases l with
  | nil => rw [hcur] at hlist; cases hlist
  | cons j l' =>
    obtain rfl : i = j := Option.some.inj (hcur.symm.trans hlist.1)
    have hil : i ∉ l' := (List.nodup_cons.mp hnodup).1
    have hne : ∀ j ∈ l', j ≠ i := fun j hj => ne_of_mem_of_not_mem hj hil
    refine ⟨i, l', rfl, ?_, fun j hj => Function.update_of_ne (hne j hj) _ _, rfl⟩
    constructor
    · exact hlist.2
    · intro j
      by_cases hj : j = i
      · subst hj
        simp [hil]
      · simpa [hj] using h.used j
    · have hperm := h.perm.filter fun j => decide (j ≠ i)
      rw [List.filter_cons_of_neg (by simp), List.filter_eq_self.mpr (by simpa using hne),
        List.filter_map] at hperm
      exact hperm
    · intro e he
      obtain ⟨he, hei⟩ := List.mem_filter.mp he
      have hei : e.1 ≠ i := of_decide_eq_true hei
      obtain ⟨hdev, hcmd, hbh, hsec⟩ := h.same e he
      simp only [Function.update_of_ne hei]
      refine ⟨hdev, hcmd, hbh, fun _ => hsec fun heq => hei ?_⟩
      exact (Option.some.inj (hcur.symm.trans heq)).symm

theorem Kept.nextSector (h : q.Kept l) (hs : q.nextSector = some q') :
    q'.Kept l ∧ (∀ j, (q'.request j).bh = (q.request j).bh) ∧ q'.live = q.live := by
  obtain ⟨i, hcur, rfl⟩ := Option.map_eq_some_iff.mp hs
  have hsame : ∀ j, (update q.request i { q.request i with
      sector := ((q.request i).sector + 1) % 2 ^ 32 } j).dev = (q.request j).dev ∧
      (update q.request i { q.request i with
        sector := ((q.request i).sector + 1) % 2 ^ 32 } j).cmd = (q.request j).cmd ∧
      (update q.request i { q.request i with
        sector := ((q.request i).sector + 1) % 2 ^ 32 } j).bh = (q.request j).bh := by
    intro j
    by_cases hj : j = i
    · subst hj
      simp
    · simp [hj]
  refine ⟨⟨h.list, fun j => ?_, h.perm, fun e he => ?_⟩, fun j => (hsame j).2.2, rfl⟩
  · rw [h.used j, (hsame j).1]
  · obtain ⟨hdev, hcmd, hbh, hsec⟩ := h.same e he
    refine ⟨(hsame _).1.trans hdev, (hsame _).2.1.trans hcmd, (hsame _).2.2.trans hbh, fun hne => ?_⟩
    have hei : e.1 ≠ i := fun heq => hne (heq ▸ hcur)
    show (update q.request i _ e.1).sector = _
    rw [Function.update_of_ne hei]
    exact hsec hne

/-- Every step keeps a queue. -/
theorem Kept.step {e : Event} (h : q.Kept l) (hs : q.step e = some q') : ∃ l', q'.Kept l' := by
  cases e with
  | block rw dev blocknr b =>
    rcases makeRequest_cases hs with ⟨rfl, -⟩ | ⟨-, i, hi, hfree, hfill⟩
    · exact ⟨l, h⟩
    · obtain ⟨q₁, l₁, l₂, hq₁, -, hkept, -⟩ :=
        (h.of_buffer (update q.buffer b { q.buffer b with lock := true })).fill hi hfree
          (r := ⟨dev, command rw, (blocknr <<< 1) % 2 ^ 32, some b⟩) (by simp)
      rw [hfill] at hq₁
      obtain rfl := Option.some.inj hq₁
      exact ⟨_, hkept⟩
  | paging cmd dev page =>
    obtain ⟨i, hi, hfree, hfill⟩ := llRwPage_cases hs
    obtain ⟨q₁, l₁, l₂, hq₁, -, hkept, -⟩ :=
      h.fill hi hfree (r := ⟨dev, cmd, (page <<< 3) % 2 ^ 32, none⟩) (by simp)
    rw [hfill] at hq₁
    obtain rfl := Option.some.inj hq₁
    exact ⟨_, hkept⟩
  | sector => exact ⟨l, (h.nextSector hs).1⟩
  | finish uptodate =>
    obtain ⟨i, l', -, hkept, -⟩ := h.finish hs
    exact ⟨l', hkept⟩

/-! ### The order of paging requests -/

/-- `PagingFirst`, of the list of the queue. -/
def Sorted (q : Queue) (l : List ℕ) : Prop :=
  l.tail.Pairwise (fun i j => q.paging j = true → q.paging i = true) ∧
    l.filter q.paging = (q.live.filter fun e => e.2.bh.isNone).map Prod.fst

theorem Kept.pagingFirst_iff (h : q.Kept l) : q.PagingFirst ↔ q.Sorted l :=
  ⟨fun hp => hp l h.list, fun hs _ hl => h.list.unique hl ▸ hs⟩

/-- Behind the current request there are only block requests after a block request. -/
theorem Sorted.blocks (h : q.Sorted (l₁ ++ l₂)) (hne : l₁ ≠ [])
    (hz : ∀ z ∈ l₂.head?, q.paging z = false) : ∀ z ∈ l₂, q.paging z = false := by
  have hp := h.1
  rw [List.tail_append_of_ne_nil hne, List.pairwise_append] at hp
  cases l₂ with
  | nil => simp
  | cons y l₂ =>
    have hy : q.paging y = false := hz y rfl
    intro z hzl
    rcases List.mem_cons.mp hzl with rfl | hzl
    · exact hy
    · by_contra hpz
      have hpy := (List.pairwise_cons.mp hp.2.1).1 z hzl (by simpa using hpz)
      rw [hy] at hpy
      cases hpy

/-- A request that is put behind paging requests and before block requests only. -/
theorem Sorted.insert (h : q.Sorted (l₁ ++ l₂)) (hnil : l₁ = [] → l₂ = [])
    (hil : i ∉ l₁ ++ l₂) (hreq : q'.request = update q.request i r)
    (hlive : q'.live = q.live ++ [(i, r)]) (hblocks : ∀ z ∈ l₂, q.paging z = false)
    (hpaging : r.bh = none → ∀ z ∈ l₁.tail, q.paging z = true) :
    q'.Sorted (l₁ ++ i :: l₂) := by
  have hold : ∀ j ∈ l₁ ++ l₂, q'.paging j = q.paging j := fun j hj => by
    rw [paging, paging, hreq, Function.update_of_ne (ne_of_mem_of_not_mem hj hil)]
  have hnew : q'.paging i = r.bh.isNone := by rw [paging, hreq, Function.update_self]
  have hblocks' : ∀ z ∈ l₂, ¬ q'.paging z = true := fun z hz => by
    rw [hold z (List.mem_append_right _ hz), hblocks z hz]
    exact Bool.false_ne_true
  constructor
  · cases l₁ with
    | nil => rw [hnil rfl]; simp
    | cons x l₁ =>
      have hp := h.1
      rw [List.cons_append, List.tail_cons, List.pairwise_append] at hp ⊢
      refine ⟨hp.1.imp_of_mem fun {a b} ha hb hab => ?_, ?_, fun a ha b hb hpb => ?_⟩
      · rwa [hold a (by simp [ha]), hold b (by simp [hb])]
      · refine List.pairwise_cons.mpr ⟨fun z hz hpz => absurd hpz (hblocks' z hz), ?_⟩
        exact List.pairwise_of_forall_mem_list fun a _ b hb hpb => absurd hpb (hblocks' b hb)
      · rcases List.mem_cons.mp hb with rfl | hb
        · rw [hold a (by simp [ha])]
          exact hpaging (by simpa [hnew] using hpb) a ha
        · exact absurd hpb (hblocks' b hb)
  · have hf : ∀ l, l ⊆ l₁ ++ l₂ → l.filter q'.paging = l.filter q.paging := fun l hl =>
      List.filter_congr fun j hj => hold j (hl hj)
    have h₂ : l₂.filter q.paging = [] :=
      List.filter_eq_nil_iff.mpr fun z hz => by simp [hblocks z hz]
    have hl := h.2
    rw [List.filter_append, h₂, List.append_nil] at hl
    rw [List.filter_append, List.filter_cons, hf l₁ (by simp), hf l₂ (by simp), h₂, hnew, hl, hlive,
      List.filter_append, List.map_append]
    cases hbh : r.bh <;> simp [hbh]

/-- In a queue the requests before and behind a place are linked there. -/
theorem Kept.next_of_append (h : q.Kept (l₁ ++ l₂)) {z : ℕ} (hx : l₁.getLast? = some x)
    (hz : l₂.head? = some z) : x < nrRequest ∧ 0 ≤ (q.request x).dev ∧ q.next x = some z := by
  obtain ⟨l₁, rfl⟩ := List.getLast?_eq_some_iff.mp hx
  obtain ⟨l₂, rfl⟩ := List.head?_eq_some_iff.mp hz
  obtain ⟨hlt, hdev⟩ := (h.used x).mp (by simp)
  obtain ⟨c, hc, hz⟩ := Links.Seg.append_iff.mp h.list
  obtain ⟨d, -, -, hd⟩ := Links.Seg.append_iff.mp hc
  exact ⟨hlt, hdev, (Links.seg_nil.mp hd).trans hz.1⟩

theorem Sorted.finish {uptodate : Bool} {l' : List ℕ} (h : q.Sorted l) (hk : q.Kept l)
    (hs : q.endRequest uptodate = some q') (hk' : q'.Kept l') : q'.Sorted l' := by
  obtain ⟨i, l₁, rfl, hkept, hsame, hlive⟩ := hk.finish hs
  obtain rfl := hk'.list.unique hkept.list
  have hil : i ∉ l' := (List.nodup_cons.mp hk.list.nodup).1
  have hp : ∀ j ∈ l', q'.paging j = q.paging j := fun j hj => by
    rw [paging, paging, hsame j hj]
  constructor
  · refine (h.1.sublist (List.tail_sublist l')).imp_of_mem fun {a b} ha hb hab => ?_
    rwa [hp a (List.mem_of_mem_tail ha), hp b (List.mem_of_mem_tail hb)]
  · -- the entries of the ended request go from both sides
    have hfilter := congrArg (List.filter fun j => decide (j ≠ i)) h.2
    rw [hlive, List.filter_filter, List.filter_congr hp]
    rw [List.filter_filter, List.filter_map, List.filter_filter] at hfilter
    rw [List.filter_cons_of_neg (by simp)] at hfilter
    have hl : l'.filter q.paging = l'.filter fun j => decide (j ≠ i) && q.paging j :=
      List.filter_congr fun j hj => by simp [ne_of_mem_of_not_mem hj hil]
    rw [hl, hfilter]
    congr 1
    exact List.filter_congr fun e _ => by simp [Bool.and_comm]

theorem Sorted.nextSector (h : q.Sorted l) (hk : q.Kept l) (hs : q.nextSector = some q') :
    q'.Sorted l := by
  obtain ⟨-, hbh, hlive⟩ := hk.nextSector hs
  have hp : q'.paging = q.paging := funext fun j => by rw [paging, paging, hbh]
  rw [Sorted, hp, hlive]
  exact h

/-- Two neighbours that do not follow the chain `l₁` are not both in it. -/
theorem mem_of_isChain {R : ℕ → ℕ → Prop} {l₃ l₄ : List ℕ} {n : ℕ} (hchain : l₁.IsChain R)
    (heq : l₁ ++ l₂ = l₃ ++ tmp :: n :: l₄) (hR : ¬ R tmp n) : n ∈ l₂ := by
  rcases List.append_eq_append_iff.mp heq with ⟨as, rfl, rfl⟩ | ⟨bs, rfl, hbs⟩
  · simp
  · cases bs with
    | nil =>
      rw [List.nil_append] at hbs
      simp [← hbs]
    | cons t bs =>
      rw [List.cons_append] at hbs
      obtain ⟨rfl, htail⟩ := List.cons.inj hbs
      cases bs with
      | nil =>
        rw [List.nil_append] at htail
        simp [← htail]
      | cons u bs =>
        rw [List.cons_append] at htail
        obtain ⟨rfl, -⟩ := List.cons.inj htail
        have hpair := (List.isChain_append.mp hchain).2.1
        rw [List.isChain_cons_cons] at hpair
        exact absurd hpair.1 hR

/-- A block request keeps the order if and only if the elevator test puts it before no
paging request. -/
theorem Sorted.makeRequest_iff {rw dev blocknr b : ℕ} {l' : List ℕ} (h : q.Sorted l)
    (hk : q.Kept l) (hs : q.makeRequest rw dev blocknr b = some q') (hk' : q'.Kept l') :
    q'.Sorted l' ↔ (Event.block rw dev blocknr b).Guard q := by
  rcases makeRequest_cases hs with ⟨rfl, hadds⟩ | ⟨hadds, i, hi, hfree, hfill⟩
  · obtain rfl := hk'.list.unique hk.list
    exact ⟨fun _ hadds' => absurd hadds' hadds, fun _ => h⟩
  · have hil : i ∉ l := fun hmem => by
      have hdev := ((hk.used i).mp hmem).2
      omega
    obtain ⟨q₁, l₁, l₂, hq₁, rfl, hkept, hnil, hreq, hlive, hchain, hstop⟩ :=
      (hk.of_buffer (update q.buffer b { q.buffer b with lock := true })).fill hi hfree
        (r := ⟨dev, command rw, (blocknr <<< 1) % 2 ^ 32, some b⟩) (by simp)
    rw [hfill] at hq₁
    obtain rfl := Option.some.inj hq₁
    obtain rfl := hk'.list.unique hkept.list
    constructor
    · -- a paging request that the test stops at is behind the new request
      intro hsorted _ tmp n htmp hdev hnext hbh
      by_contra hstops
      obtain ⟨l₃, l₄, heq, -, hrest⟩ := hk.list.split ((hk.used tmp).mpr ⟨htmp, hdev⟩)
      rw [hnext] at hrest
      cases l₄ with
      | nil => cases hrest
      | cons m l₄ =>
        obtain rfl : n = m := Option.some.inj hrest.1
        have hn : n ∈ l₂ := mem_of_isChain hchain heq hstops
        have hni : n ≠ i := ne_of_mem_of_not_mem (List.mem_append_right l₁ hn) hil
        have hl₁ : l₁ ≠ [] := fun hl₁ => by
          have hzero := hnil hl₁
          rw [hl₁, List.nil_append] at hzero
          rw [hzero] at hn
          cases hn
        have hp := hsorted.1
        rw [List.tail_append_of_ne_nil hl₁, List.pairwise_append, List.pairwise_cons] at hp
        have hcon := hp.2.1.1 n hn
          (by rw [paging, hreq, Function.update_of_ne hni, hbh]; rfl)
        rw [paging, hreq, Function.update_self] at hcon
        cases hcon
    · intro hguard
      refine h.insert (fun hl₁ => ?_) hil hreq hlive ?_ (fun hr => by cases hr)
      · have hzero := hnil hl₁
        rwa [hl₁, List.nil_append] at hzero
      · by_cases hl₁ : l₁ = []
        · have hzero := hnil hl₁
          rw [hl₁, List.nil_append] at hzero
          simp [hzero]
        · refine h.blocks hl₁ fun z hz => ?_
          obtain ⟨x, hx⟩ := Option.ne_none_iff_exists'.mp (mt List.getLast?_eq_none_iff.mp hl₁)
          obtain ⟨hlt, hdev, hnext⟩ := hk.next_of_append hx hz
          by_contra hpz
          have hbh : (q.request z).bh = none := by simpa [paging] using hpz
          have hfalse := hguard hadds x z hlt hdev hnext hbh
          rw [hstop x hx z hz] at hfalse
          cases hfalse

/-- A paging request keeps the order. -/
theorem Sorted.llRwPage {cmd dev page : ℕ} {l' : List ℕ} (h : q.Sorted l) (hk : q.Kept l)
    (hs : q.llRwPage cmd dev page = some q') (hk' : q'.Kept l') : q'.Sorted l' := by
  obtain ⟨i, hi, hfree, hfill⟩ := llRwPage_cases hs
  have hil : i ∉ l := fun hmem => by
    have hdev := ((hk.used i).mp hmem).2
    omega
  obtain ⟨q₁, l₁, l₂, hq₁, rfl, hkept, hnil, hreq, hlive, hchain, hstop⟩ :=
    hk.fill hi hfree (r := ⟨dev, cmd, (page <<< 3) % 2 ^ 32, none⟩) (by simp)
  rw [hfill] at hq₁
  obtain rfl := Option.some.inj hq₁
  obtain rfl := hk'.list.unique hkept.list
  -- the loop passes paging requests and stops at a block request
  have hpass : ∀ z ∈ l₁.tail, q.paging z = true := by
    clear hkept hnil hstop hfill hk' hk h hil
    induction l₁ with
    | nil => simp
    | cons y l₁ ih =>
      intro z hz
      cases l₁ with
      | nil => cases hz
      | cons y' l₁ =>
        rw [List.isChain_cons_cons] at hchain
        rcases List.mem_cons.mp hz with rfl | hz
        · simpa [stops, paging] using hchain.1
        · exact ih hchain.2 z hz
  refine h.insert (fun hl₁ => ?_) hil hreq hlive ?_ fun _ => hpass
  · have hzero := hnil hl₁
    rwa [hl₁, List.nil_append] at hzero
  · by_cases hl₁ : l₁ = []
    · have hzero := hnil hl₁
      rw [hl₁, List.nil_append] at hzero
      simp [hzero]
    · refine h.blocks hl₁ fun z hz => ?_
      obtain ⟨x, hx⟩ := Option.ne_none_iff_exists'.mp (mt List.getLast?_eq_none_iff.mp hl₁)
      have hs := hstop x hx z hz
      simpa [stops, paging, Option.isSome_iff_ne_none] using hs

/-- A step keeps the order if and only if it meets the condition. -/
theorem Sorted.step_iff {e : Event} {l' : List ℕ} (h : q.Sorted l) (hk : q.Kept l)
    (hs : q.step e = some q') (hk' : q'.Kept l') : q'.Sorted l' ↔ e.Guard q := by
  cases e with
  | block rw dev blocknr b => exact h.makeRequest_iff hk hs hk'
  | paging cmd dev page => exact ⟨fun _ => trivial, fun _ => h.llRwPage hk hs hk'⟩
  | sector =>
    obtain ⟨hkept, -⟩ := hk.nextSector hs
    obtain rfl := hk'.list.unique hkept.list
    exact ⟨fun _ => trivial, fun _ => h.nextSector hk hs⟩
  | finish uptodate => exact ⟨fun _ => trivial, fun _ => h.finish hk hs hk'⟩

theorem Kept.reach (hr : queue.Reachable q) : ∃ l, q.Kept l := by
  refine hr.invariant (I := fun q => ∃ l, q.Kept l) (fun q hq => ⟨[], Kept.start hq⟩) ?_
  rintro q e q' ⟨l, h⟩ - hs
  exact h.step hs

theorem Sorted.reach (hr : queue.Reach (fun q e => e.Guard q) q) :
    ∃ l, q.Kept l ∧ q.Sorted l := by
  refine hr.invariant (I := fun q => ∃ l, q.Kept l ∧ q.Sorted l)
    (fun q hq => ⟨[], Kept.start hq, ?_⟩) ?_
  · simp [Sorted, hq.2.2]
  · rintro q e q' ⟨l, hk, h⟩ hg hs
    obtain ⟨l', hk'⟩ := hk.step hs
    exact ⟨l', hk', (h.step_iff hk hs hk').mpr hg⟩

end Queue

/-- The queue always holds the requests added and not ended, each once.  As long as
the elevator test puts no block request before a paging request, paging requests come
first behind the current request and are in the order of their addition; the first
step that does put one there breaks the order. -/
theorem request_order {q : Queue} :
    (queue.Reachable q → q.Exact) ∧
      (queue.Reach (fun q e => e.Guard q) q → q.PagingFirst ∧
        ∀ e q', queue.step q e q' → (q'.PagingFirst ↔ e.Guard q)) := by
  constructor
  · intro hr
    obtain ⟨l, h⟩ := Queue.Kept.reach hr
    exact h.exact
  · intro hr
    obtain ⟨l, hk, h⟩ := Queue.Sorted.reach hr
    refine ⟨hk.pagingFirst_iff.mpr h, fun e q' hs => ?_⟩
    obtain ⟨l', hk'⟩ := hk.step hs
    rw [hk'.pagingFirst_iff]
    exact h.step_iff hk hs hk'

/-! ### Runs from a list of steps -/

/-- After `blk_dev_init`, with every buffer dirty. -/
def Queue.boot : Queue where
  request := fun _ => ⟨-1, 0, 0, none⟩
  next := fun _ => none
  current := none
  buffer := fun _ => ⟨false, true, false⟩
  live := []

theorem Queue.reach_boot {G : Queue → Event → Prop} : queue.Reach G .boot :=
  .init ⟨fun _ _ => rfl, rfl, rfl⟩

theorem request_order_paging : ∃ q : Queue,
    System.runOf Queue.step [.paging write 769 1, .paging read 769 2] .boot = some q ∧
      q.current = some 31 ∧ q.Exact ∧ q.PagingFirst := by
  have hrun : (System.runOf Queue.step [.paging write 769 1, .paging read 769 2] .boot).any
      (fun q => decide (q.current = some 31)) = true := by
    decide +kernel
  obtain ⟨q, hq, hcur⟩ := (Option.any_eq_true _ _).mp hrun
  have hreach : queue.Reach (fun q e => e.Guard q) q :=
    .of_runOf (fun _ _ _ h => h) (by simp [Event.Guard]) Queue.reach_boot hq
  exact ⟨q, hq, of_decide_eq_true hcur, request_order.1 (hreach.mono fun _ _ _ => trivial),
    (request_order.2 hreach).1⟩

/-- A block is written, a page goes out, a block is read, and the page comes in. -/
def elevatorRun : List Event :=
  [.block write 770 50 0, .paging write 769 1, .block read 770 1 1, .paging read 769 1]

/-- After `elevatorRun` the page comes in before it has gone out. -/
theorem request_order_lost : ¬ ∀ q, queue.Reachable q → q.PagingFirst := by
  have hrun : (System.runOf Queue.step elevatorRun .boot).any (fun q =>
      decide (IsList q.next q.current [20, 29, 30, 31] ∧ q.paging 20 = false ∧
        q.paging 29 = true ∧ q.paging 30 = false ∧ q.paging 31 = true ∧
        (q.live.filter fun e => e.2.bh.isNone).map Prod.fst = [31, 29])) = true := by
    decide +kernel
  obtain ⟨q, hq, hrun⟩ := (Option.any_eq_true _ _).mp hrun
  rw [decide_eq_true_iff] at hrun
  obtain ⟨hlist, h20, h29, h30, h31, hlive⟩ := hrun
  intro h
  have hreach : queue.Reachable q :=
    .of_runOf (fun _ _ _ h => h) (fun _ _ _ => trivial) Queue.reach_boot hq
  obtain ⟨-, hfilter⟩ := h q hreach _ hlist
  rw [hlive] at hfilter
  simp [h20, h29, h30, h31] at hfilter

end Blk
