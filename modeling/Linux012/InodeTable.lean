/-
The inodes in memory (fs/inode.c, `new_inode` and `free_inode` of fs/bitmap.c), with
processes that sleep in `iget`, `iput` and `new_inode`.

* `InodeTable` — the entries, the inode bit maps, and where each process sleeps;
* `InodeTable.next` — a process goes on with its call;
* `inode_table` — `get_empty_inode` takes only entries that are free, clean and not locked,
  and `iget` returns the inode it was asked for; no inode is in two entries, as long as
  `iget` reads only inodes whose bit is set;
* `inode_table_twice` — `iget` waits while its inode is freed, reads it all the same, and
  `new_inode` gives its number out again.

Design notes: a call goes on from one sleep to the next, or stops earlier, where others
may run as well.  `sys_mount` is one step here, and nothing is unmounted.  Other processes
write, change, lock and unlock inodes.  Pipes, and the devices' data, are left out.
-/
import Linux012.MountTable

namespace Fs

open Function (update)

universe u

/-- A device and the number of an inode. -/
abbrev InodeId := ℕ × ℕ

def MInode.id (inode : MInode) : InodeId := (inode.dev, inode.num)

theorem MInode.dev_eq {i j : MInode} (h : i.id = j.id) : i.dev = j.dev := congrArg Prod.fst h

theorem MInode.num_eq {i j : MInode} (h : i.id = j.id) : i.num = j.num := congrArg Prod.snd h

/-- The call that needs an empty inode. -/
inductive EmptyFor where
  | iget (id : InodeId)
  | newInode (dev : ℕ)
  deriving DecidableEq

/-- What is left to do after an `iput`. -/
inductive AfterPut where
  | exit
  /-- `iget(id₀)` returns entry `e` -/
  | found (id₀ : InodeId) (e : ℕ)
  /-- `iget(id₀)` goes on with the device of super block `k` -/
  | mounted (id₀ : InodeId) (k empty : ℕ)
  deriving DecidableEq

/-- Where `iput` is. -/
inductive PutStage where
  /-- in the first `wait_on_inode` -/
  | first
  /-- in `sync_dev`, or in the `wait_on_inode` before `repeat` -/
  | again
  /-- in `write_inode` -/
  | writes
  /-- in `truncate` -/
  | truncates
  deriving DecidableEq

/-- Where a process is. -/
inductive InodePhase where
  | idle
  /-- in `get_empty_inode`, which waits for entry `e`, or writes it -/
  | empties (c : EmptyFor) (e : ℕ)
  | writes (c : EmptyFor) (e : ℕ)
  /-- `new_inode` has an empty entry, and waits in `get_super` -/
  | numbers (dev e : ℕ)
  /-- `iget(id₀)` looks for `id`, waits for entry `e`, or reads the inode into entry `e` -/
  | looks (id₀ id : InodeId) (empty : ℕ)
  | waits (id₀ id : InodeId) (empty e : ℕ)
  | reads (id₀ : InodeId) (e : ℕ)
  /-- in `iput` of entry `e` -/
  | puts (e : ℕ) (stage : PutStage) (k : AfterPut)
  /-- `iget(id₀)` has returned entry `e` -/
  | returned (id₀ : InodeId) (e : ℕ)
  deriving DecidableEq

/-- `get_empty_inode` returns entry `e`. -/
def EmptyFor.given (e : ℕ) : EmptyFor → InodePhase
  | .iget id => .looks id id e
  | .newInode dev => .numbers dev e

/-- The entries that a call has references to. -/
def AfterPut.held : AfterPut → List ℕ
  | .exit => []
  | .found _ e => [e]
  | .mounted _ _ empty => [empty]

def InodePhase.held : InodePhase → List ℕ
  | .idle | .empties _ _ | .writes _ _ => []
  | .numbers _ e | .reads _ e | .returned _ e => [e]
  | .looks _ _ empty | .waits _ _ empty _ => [empty]
  | .puts e _ k => e :: k.held

/-- The entry that `get_empty_inode` has given to a call, which has not used it yet. -/
def InodePhase.empty : InodePhase → Option ℕ
  | .numbers _ e => some e
  | .looks _ _ empty | .waits _ _ empty _ | .puts _ _ (.mounted _ _ empty) => some empty
  | _ => none

/-- The tables and the processes. -/
structure InodeTable (P : Type u) where
  inode : ℕ → MInode
  super : ℕ → Super
  /-- the inode bit maps and `s_ninodes`, by device -/
  imap : ℕ → ℕ → Bool
  ninodes : ℕ → ℕ
  /-- `last_inode` -/
  last : ℕ
  /-- the references that processes hold between calls -/
  users : ℕ → ℕ
  phase : P → InodePhase

/-- What happens next. -/
inductive InodeEvent (P : Type u) where
  | iget (p : P) (dev nr : ℕ)
  | newInode (p : P) (dev : ℕ)
  | iput (p : P) (e : ℕ)
  /-- a call goes on -/
  | empty (p : P)
  | wrote (p : P)
  | number (p : P)
  | look (p : P)
  | wait (p : P)
  | read (p : P) (nlinks : ℕ) (kind : FileKind)
  | put (p : P)
  /-- a call has returned a reference -/
  | take (p : P)
  /-- other processes -/
  | use (e : ℕ)
  | touch (e nlinks : ℕ) (dirt lock : Bool)
  | mount (e k dev : ℕ)

namespace InodeTable

variable {P : Type u}

def setInode (s : InodeTable P) (e : ℕ) (inode : MInode) : InodeTable P :=
  { s with inode := update s.inode e inode }

def setUsers (s : InodeTable P) (e n : ℕ) : InodeTable P :=
  { s with users := update s.users e n }

/-- `set_bit` and `clear_bit`. -/
def setBit (s : InodeTable P) (id : InodeId) (bit : Bool) : InodeTable P :=
  { s with imap := update s.imap id.1 (update (s.imap id.1) id.2 bit) }

/-- The loop of `get_empty_inode` that looks for an entry, from `last_inode` on. -/
def emptyLoop (s : InodeTable P) : ℕ → ℕ → Option ℕ → Option ℕ × ℕ
  | 0, last, inode => (inode, last)
  | i + 1, last, inode =>
    let last := if nrInode ≤ last + 1 then 0 else last + 1
    if (s.inode last).count ≠ 0 then s.emptyLoop i last inode
    else if (s.inode last).dirt = false ∧ (s.inode last).lock = false then (some last, last)
    else s.emptyLoop i last (some last)

/-- The entry of the table that `iget` comes to. -/
def find (s : InodeTable P) (id : InodeId) : Option ℕ :=
  (List.range nrInode).find? fun e => (s.inode e).id == id

/-- The super block with entry `e` as `s_imount`. -/
def mountedOn (s : InodeTable P) (e : ℕ) : Option ℕ :=
  (List.range nrSuper).find? fun k => (s.super k).imount == some e

/-- `find_first_zero`, over the bit maps of the device. -/
def newNumber (s : InodeTable P) (dev : ℕ) : Option ℕ :=
  (List.range (s.ninodes dev + 1)).find? fun n => !s.imap dev n

variable [DecidableEq P]

def setPhase (s : InodeTable P) (p : P) (ph : InodePhase) : InodeTable P :=
  { s with phase := update s.phase p ph }

/-- `get_empty_inode` chooses an entry. -/
def chooseEmpty (s : InodeTable P) (p : P) (c : EmptyFor) : Option (InodeTable P) :=
  match s.emptyLoop nrInode s.last none with
  | (none, _) => none
  | (some e, last) => some ({ s with last := last }.setPhase p (.empties c e))

/-- `get_empty_inode`, from its `wait_on_inode`s on. -/
def emptyStep (s : InodeTable P) (p : P) (c : EmptyFor) (e : ℕ) : Option (InodeTable P) :=
  if (s.inode e).lock then none
  else if (s.inode e).dirt then
    -- `write_inode` does nothing without a device, and is called again for ever
    if (s.inode e).dev = 0 then none
    else some ((s.setInode e { s.inode e with lock := true }).setPhase p (.writes c e))
  else if (s.inode e).count ≠ 0 then s.chooseEmpty p c
  else some ((s.setInode e { MInode.zero with count := 1 }).setPhase p (c.given e))

/-- `new_inode`, after `get_super`. -/
def numberStep (s : InodeTable P) (p : P) (dev e : ℕ) : InodeTable P :=
  match s.newNumber dev with
  | none => s.setPhase p (.puts e .first .exit)
  | some n =>
    ((((s.setBit (dev, n) true).setInode e
      { s.inode e with count := 1, nlinks := 1, dev := dev, dirt := true, num := n }).setUsers e
        (s.users e + 1)).setPhase p .idle)

/-- `iget` has found entry `e`. -/
def foundStep (s : InodeTable P) (p : P) (id₀ : InodeId) (empty e : ℕ) : InodeTable P :=
  (s.setInode e { s.inode e with count := (s.inode e).count + 1 }).setPhase p
    (if (s.inode e).mount then
      match s.mountedOn e with
      | none => .puts empty .first (.found id₀ e)
      | some k => .puts e .first (.mounted id₀ k empty)
    else .puts empty .first (.found id₀ e))

/-- `iget` looks through the table. -/
def lookStep (s : InodeTable P) (p : P) (id₀ id : InodeId) (empty : ℕ) :
    InodeTable P :=
  match s.find id with
  | none =>
    -- `read_inode` sleeps from `lock_inode` on
    (s.setInode empty { s.inode empty with dev := id.1, num := id.2, lock := true }).setPhase p
      (.reads id₀ empty)
  | some e =>
    if (s.inode e).lock then s.setPhase p (.waits id₀ id empty e)
    else s.foundStep p id₀ empty e

/-- `iget` after its `wait_on_inode`. -/
def waitStep (s : InodeTable P) (p : P) (id₀ id : InodeId) (empty e : ℕ) :
    Option (InodeTable P) :=
  if (s.inode e).lock then none
  else if (s.inode e).id ≠ id then some (s.setPhase p (.looks id₀ id empty))
  else some (s.foundStep p id₀ empty e)

/-- Where `iput` returns to. -/
def after (s : InodeTable P) : AfterPut → InodePhase
  | .exit => .idle
  | .found id₀ e => .returned id₀ e
  | .mounted id₀ k empty => .looks id₀ ((s.super k).dev, rootIno) empty

/-- `i_count--`, and `iput` is over. -/
def putDone (s : InodeTable P) (p : P) (e : ℕ) (k : AfterPut) : InodeTable P :=
  (s.setInode e (s.inode e).decCount).setPhase p (s.after k)

/-- `iput`, from `repeat` on. -/
def putRepeat (s : InodeTable P) (p : P) (e : ℕ) (k : AfterPut) : Option (InodeTable P) :=
  if 1 < (s.inode e).count then some (s.putDone p e k)
  else if (s.inode e).nlinks = 0 then some (s.setPhase p (.puts e .truncates k))
  else if (s.inode e).dirt then
    if (s.inode e).dev = 0 then none
    else some ((s.setInode e { s.inode e with lock := true }).setPhase p (.puts e .writes k))
  else some (s.putDone p e k)

/-- `free_inode`. -/
def freeInode (s : InodeTable P) (e : ℕ) : Option (InodeTable P) :=
  if (s.inode e).dev = 0 then some (s.setInode e .zero)
  else if 1 < (s.inode e).count then none
  else if (s.inode e).nlinks ≠ 0 then none
  else if (s.inode e).num = 0 ∨ s.ninodes (s.inode e).dev < (s.inode e).num then none
  else some ((s.setBit (s.inode e).id false).setInode e .zero)

/-- `iput` goes on. -/
def putStep (s : InodeTable P) (p : P) (e : ℕ) (k : AfterPut) : PutStage → Option (InodeTable P)
  | .first =>
    if (s.inode e).lock then none
    else if (s.inode e).count = 0 then none
    else if (s.inode e).dev = 0 then some (s.putDone p e k)
    else if (s.inode e).kind = .blk then some (s.setPhase p (.puts e .again k))
    else s.putRepeat p e k
  | .again => if (s.inode e).lock then none else s.putRepeat p e k
  | .writes =>
    some ((s.setInode e { s.inode e with dirt := false, lock := false }).setPhase p
      (.puts e .again k))
  | .truncates => (s.freeInode e).map fun s' => s'.setPhase p (s.after k)

/-- What an event leads to. -/
def next (s : InodeTable P) : InodeEvent P → Option (InodeTable P)
  | .iget p dev nr =>
    if s.phase p = .idle ∧ dev ≠ 0 then s.chooseEmpty p (.iget (dev, nr)) else none
  | .newInode p dev =>
    if s.phase p = .idle ∧ dev ≠ 0 then s.chooseEmpty p (.newInode dev) else none
  | .iput p e =>
    if s.phase p = .idle ∧ s.users e ≠ 0 then
      some ((s.setUsers e (s.users e - 1)).setPhase p (.puts e .first .exit))
    else none
  | .empty p =>
    match s.phase p with
    | .empties c e => s.emptyStep p c e
    | _ => none
  | .wrote p =>
    match s.phase p with
    | .writes c e =>
      some ((s.setInode e { s.inode e with dirt := false, lock := false }).setPhase p (.empties c e))
    | _ => none
  | .number p =>
    match s.phase p with
    | .numbers dev e => some (s.numberStep p dev e)
    | _ => none
  | .look p =>
    match s.phase p with
    | .looks id₀ id empty => some (s.lookStep p id₀ id empty)
    | _ => none
  | .wait p =>
    match s.phase p with
    | .waits id₀ id empty e => s.waitStep p id₀ id empty e
    | _ => none
  | .read p nlinks kind =>
    match s.phase p with
    | .reads id₀ e =>
      some ((s.setInode e { s.inode e with nlinks := nlinks, kind := kind, lock := false }).setPhase
        p (.returned id₀ e))
    | _ => none
  | .put p =>
    match s.phase p with
    | .puts e stage k => s.putStep p e k stage
    | _ => none
  | .take p =>
    match s.phase p with
    | .returned _ e => some ((s.setUsers e (s.users e + 1)).setPhase p .idle)
    | _ => none
  | .use e =>
    if s.users e = 0 then none
    else some ((s.setInode e { s.inode e with count := (s.inode e).count + 1 }).setUsers e
      (s.users e + 1))
  | .touch e nlinks dirt lock =>
    some (s.setInode e { s.inode e with nlinks := nlinks, dirt := dirt, lock := lock })
  | .mount e k dev =>
    if s.users e = 0 ∨ (s.inode e).mount ∨ (s.inode e).num = rootIno ∨ (s.inode e).dev = 0 ∨
        (s.super k).imount ≠ none ∨ dev = 0 then none
    else
      some { (s.setInode e { s.inode e with mount := true, dirt := true }).setUsers e
        (s.users e - 1) with super := update s.super k ⟨dev, some e, false⟩ }

/-- The inode that `iget` comes to read. -/
def toRead (s : InodeTable P) (p : P) : Option InodeId :=
  match s.phase p with
  | .looks _ id _ => if (s.find id).isSome then none else some id
  | _ => none

/-- The bit of an inode is set when `iget` reads it. -/
def InUse (s : InodeTable P) : InodeEvent P → Prop
  | .look p => ∀ id ∈ s.toRead p, s.imap id.1 id.2 = true
  | _ => True

/-- The bit of an inode is set when `iget` is called for it. -/
def Called (s : InodeTable P) : InodeEvent P → Prop
  | .iget _ dev nr => s.imap dev nr = true
  | _ => True

instance (s : InodeTable P) : (a : InodeEvent P) → Decidable (s.InUse a)
  | .look p => inferInstanceAs (Decidable (∀ id ∈ s.toRead p, s.imap id.1 id.2 = true))
  | .iget .. | .newInode .. | .iput .. | .empty _ | .wrote _ | .number _ | .wait _ | .read ..
  | .put _ | .take _ | .use _ | .touch .. | .mount .. => isTrue trivial

instance (s : InodeTable P) : (a : InodeEvent P) → Decidable (s.Called a)
  | .iget _ dev nr => inferInstanceAs (Decidable (s.imap dev nr = true))
  | .look _ | .newInode .. | .iput .. | .empty _ | .wrote _ | .number _ | .wait _ | .read ..
  | .put _ | .take _ | .use _ | .touch .. | .mount .. => isTrue trivial

/-- An inode that `iget(id₀)` may return: `id₀`, or the root of the device mounted on it. -/
def Names (s : InodeTable P) (id₀ id : InodeId) : Prop :=
  id = id₀ ∨ ∃ k e, (s.super k).imount = some e ∧ (s.inode e).id = id₀ ∧
    id = ((s.super k).dev, rootIno)

end InodeTable

/-- The runs of `iget`, `iput` and `new_inode`, from an empty table on. -/
def inodeTables (P : Type u) [DecidableEq P] : System (InodeTable P) (InodeEvent P) where
  init s := (∀ e, s.inode e = .zero) ∧ (∀ k, (s.super k).imount = none) ∧ (∀ e, s.users e = 0) ∧
    ∀ p, s.phase p = .idle
  step s a s' := s.next a = some s'

/-! ### References -/

namespace InodeTable

variable {P : Type u} {s s' : InodeTable P} {p p' : P} {ph : InodePhase} {x e n : ℕ}
  {inode : MInode} {id₀ id : InodeId}

theorem setInode_apply (s : InodeTable P) (i k : ℕ) (inode : MInode) :
    (s.setInode i inode).inode k = if k = i then inode else s.inode k := by
  by_cases h : k = i
  · simp [setInode, h]
  · simp [setInode, h]

theorem find_spec (h : s.find id = some e) : e < nrInode ∧ (s.inode e).id = id := by
  have hmem := List.mem_of_find?_eq_some h
  have hfind := List.find?_some h
  exact ⟨List.mem_range.mp hmem, by simpa using hfind⟩

theorem ne_of_find (h : s.find id = none) : ∀ e < nrInode, (s.inode e).id ≠ id := by
  intro e he
  have := List.find?_eq_none.mp h e (List.mem_range.mpr he)
  simpa using this

theorem mountedOn_spec {k : ℕ} (h : s.mountedOn e = some k) : (s.super k).imount = some e := by
  have hfind := List.find?_some h
  simpa using hfind

theorem newNumber_spec {dev : ℕ} (h : s.newNumber dev = some n) : s.imap dev n = false := by
  have hfind := List.find?_some h
  simpa using hfind

theorem emptyLoop_lt (s : InodeTable P) (i last : ℕ) (inode : Option ℕ)
    (hinode : ∀ e ∈ inode, e < nrInode) : ∀ e ∈ (s.emptyLoop i last inode).1, e < nrInode := by
  induction i generalizing last inode with
  | zero => exact hinode
  | succ i ih =>
    have hlast : (if nrInode ≤ last + 1 then 0 else last + 1) < nrInode := by
      split
      · decide
      · omega
    rw [emptyLoop]
    generalize (if nrInode ≤ last + 1 then 0 else last + 1) = last' at hlast ⊢
    split
    case isTrue => exact ih last' inode hinode
    case isFalse =>
      split
      case isTrue =>
        intro e he
        rwa [← Option.some.inj he]
      case isFalse =>
        refine ih last' (some last') fun e he => ?_
        rwa [← Option.some.inj he]

/-- The references that calls hold. -/
def held [Fintype P] (s : InodeTable P) (e : ℕ) : ℕ := ∑ p, (s.phase p).held.count e

/-- The reference of the super block that covers entry `e`. -/
def mountRef (s : InodeTable P) (e : ℕ) : ℕ := if (s.inode e).mount then 1 else 0

/-- An entry that `get_empty_inode` has given to a call. -/
def Reserved (s : InodeTable P) (e : ℕ) : Prop :=
  e < nrInode ∧ (s.inode e).dev = 0 ∧ (s.inode e).count = 1

/-- What holds of a call that has still to do `k` after an `iput` of entry `e`. -/
def PutOk (s : InodeTable P) (e : ℕ) : AfterPut → Prop
  | .exit => True
  | .found id₀ e' => s.Names id₀ (s.inode e').id
  | .mounted id₀ k empty => s.Reserved empty ∧ (s.super k).imount = some e ∧ (s.inode e).id = id₀

/-- What holds of a call. -/
def PhaseOk (s : InodeTable P) : InodePhase → Prop
  | .idle => True
  | .empties c e | .writes c e => e < nrInode ∧ ∀ id, c = .iget id → id.1 ≠ 0
  | .numbers _ e => s.Reserved e
  | .looks id₀ id empty | .waits id₀ id empty _ => s.Reserved empty ∧ id.1 ≠ 0 ∧ s.Names id₀ id
  | .reads id₀ e | .returned id₀ e => s.Names id₀ (s.inode e).id
  | .puts e stage k => (stage ≠ .first → (s.inode e).dev ≠ 0) ∧ s.PutOk e k

/-- What holds in every run. -/
structure Kept [Fintype P] (s : InodeTable P) : Prop where
  counted : ∀ e, (s.inode e).count = s.users e + s.held e + s.mountRef e
  phases : ∀ p, s.PhaseOk (s.phase p)
  mounted : ∀ k e, (s.super k).imount = some e → (s.inode e).mount = true ∧ (s.super k).dev ≠ 0
  mounts : ∀ e, (s.inode e).mount = true → (s.inode e).num ≠ rootIno ∧ (s.inode e).dev ≠ 0
  above : ∀ e, nrInode ≤ e → (s.inode e).dev = 0

/-- No inode is in two entries, and the bits of those in the table are set. -/
structure Unique (s : InodeTable P) : Prop where
  once : ∀ e e', e < nrInode → e' < nrInode → (s.inode e).dev ≠ 0 →
    (s.inode e).id = (s.inode e').id → e = e'
  bits : ∀ e < nrInode, (s.inode e).dev ≠ 0 → s.imap (s.inode e).dev (s.inode e).num = true

theorem count_le_held [Fintype P] (s : InodeTable P) (p : P) (e : ℕ) :
    (s.phase p).held.count e ≤ s.held e :=
  Finset.single_le_sum (f := fun p => (s.phase p).held.count e) (fun _ _ => Nat.zero_le _)
    (Finset.mem_univ p)

theorem count_add_le_held [Fintype P] [DecidableEq P] (s : InodeTable P) (hp : p' ≠ p) (e : ℕ) :
    (s.phase p).held.count e + (s.phase p').held.count e ≤ s.held e := by
  have hle : ∑ q ∈ {p, p'}, (s.phase q).held.count e ≤ s.held e :=
    Finset.sum_le_sum_of_subset (Finset.subset_univ _)
  rwa [Finset.sum_pair hp.symm] at hle

/-- Nobody but one call has a reference to the entry. -/
structure Sole (s : InodeTable P) (p : P) (e : ℕ) : Prop where
  users : s.users e = 0
  mount : (s.inode e).mount = false
  once : (s.phase p).held.count e ≤ 1
  other : ∀ p', p' ≠ p → e ∉ (s.phase p').held

theorem Kept.sole [Fintype P] [DecidableEq P] (h : s.Kept) (hp : e ∈ (s.phase p).held)
    (hcount : (s.inode e).count ≤ 1) : s.Sole p e := by
  have hpos := List.one_le_count_iff.mpr hp
  have hheld := s.count_le_held p e
  have heq := h.counted e
  refine ⟨by omega, ?_, by omega, fun p' hp' hmem => ?_⟩
  · by_contra hmount
    rw [mountRef, if_pos (by simpa using hmount)] at heq
    omega
  · have hpos' := List.one_le_count_iff.mpr hmem
    have hsum := s.count_add_le_held hp' e
    omega

/-- An entry with `i_count` 0 is in nobody's hands. -/
theorem Kept.free [Fintype P] (h : s.Kept) (hcount : (s.inode e).count = 0) :
    s.users e = 0 ∧ (s.inode e).mount = false ∧ ∀ p, e ∉ (s.phase p).held := by
  have heq := h.counted e
  refine ⟨by omega, ?_, fun p hmem => ?_⟩
  · by_contra hmount
    rw [mountRef, if_pos (by simpa using hmount)] at heq
    omega
  · have hpos := List.one_le_count_iff.mpr hmem
    have hheld := s.count_le_held p e
    omega

theorem Names.frame (hn : s.Names id₀ id)
    (hmounted : ∀ k e, (s.super k).imount = some e →
      s'.super k = s.super k ∧ (s'.inode e).id = (s.inode e).id) : s'.Names id₀ id := by
  obtain heq | ⟨k, e, hk, he, heq⟩ := hn
  · exact .inl heq
  · obtain ⟨hsuper, hid⟩ := hmounted k e hk
    exact .inr ⟨k, e, by rw [hsuper, hk], by rw [hid, he], by rw [hsuper, heq]⟩

/-- What holds of a call still holds if its entries, and those with devices mounted on them,
keep their devices and numbers. -/
theorem PhaseOk.frame (h : s.PhaseOk ph)
    (hmounted : ∀ k e, (s.super k).imount = some e →
      s'.super k = s.super k ∧ (s'.inode e).id = (s.inode e).id)
    (hheld : ∀ e ∈ ph.held, (s'.inode e).id = (s.inode e).id)
    (hres : ∀ e ∈ ph.held, s.Reserved e → s'.Reserved e) : s'.PhaseOk ph := by
  cases ph with
  | idle => trivial
  | empties c e => exact h
  | writes c e => exact h
  | numbers dev e => exact hres e List.mem_cons_self h
  | looks id₀ id empty =>
    obtain ⟨hempty, hid, hn⟩ := h
    exact ⟨hres empty List.mem_cons_self hempty, hid, hn.frame hmounted⟩
  | waits id₀ id empty e =>
    obtain ⟨hempty, hid, hn⟩ := h
    exact ⟨hres empty List.mem_cons_self hempty, hid, hn.frame hmounted⟩
  | reads id₀ e =>
    have hn := Names.frame h hmounted
    rwa [← hheld e List.mem_cons_self] at hn
  | returned id₀ e =>
    have hn := Names.frame h hmounted
    rwa [← hheld e List.mem_cons_self] at hn
  | puts e stage k =>
    obtain ⟨hdev, hok⟩ := h
    refine ⟨fun hstage => ?_, ?_⟩
    · rw [MInode.dev_eq (hheld e List.mem_cons_self)]
      exact hdev hstage
    cases k with
    | exit => trivial
    | found id₀ e' =>
      have hn := Names.frame hok hmounted
      rwa [← hheld e' (List.mem_cons_of_mem _ List.mem_cons_self)] at hn
    | mounted id₀ k empty =>
      obtain ⟨hempty, hk, he⟩ := hok
      refine ⟨hres empty (List.mem_cons_of_mem _ List.mem_cons_self) hempty, ?_, ?_⟩
      · rw [(hmounted k e hk).1, hk]
      · rw [(hmounted k e hk).2, he]

/-! ### Steps -/

theorem held_update [Fintype P] [DecidableEq P] (hphase : s'.phase = update s.phase p ph) (e : ℕ) :
    s'.held e + (s.phase p).held.count e = s.held e + ph.held.count e := by
  have hsum := Counting.sum_add_of_eq_off (fun q => (s.phase q).held.count e)
    (fun q => (s'.phase q).held.count e) p fun q hq => by
      simp only [hphase, Function.update_of_ne hq]
  simp only [hphase, Function.update_self] at hsum
  rw [← hphase] at hsum
  exact hsum

/-- What the calls rely on when one entry changes. -/
theorem Kept.frame [Fintype P] (h : s.Kept) (hinode : s'.inode = update s.inode x inode)
    (hsuper : ∀ k e, (s.super k).imount = some e → s'.super k = s.super k)
    (hid : (s.inode x).mount = true → inode.id = (s.inode x).id) (hph : s.PhaseOk ph)
    (hother : x ∈ ph.held → inode.id = (s.inode x).id ∧ (s.Reserved x → inode.count = 1)) :
    s'.PhaseOk ph := by
  have hx : s'.inode x = inode := by rw [hinode, Function.update_self]
  have hne : ∀ e, e ≠ x → s'.inode e = s.inode e := fun e he => by
    rw [hinode, Function.update_of_ne he]
  refine hph.frame (fun k e hk => ⟨hsuper k e hk, ?_⟩) (fun e he => ?_) fun e he hres => ?_
  · by_cases hex : e = x
    · have hmount := (h.mounted k e hk).1
      rw [hex] at hmount ⊢
      rw [hx, hid hmount]
    · rw [hne e hex]
  · by_cases hex : e = x
    · rw [hex] at he ⊢
      rw [hx, (hother he).1]
    · rw [hne e hex]
  · by_cases hex : e = x
    · rw [hex] at he hres ⊢
      obtain ⟨hid', hone⟩ := hother he
      refine ⟨hres.1, ?_, ?_⟩
      · rw [hx, MInode.dev_eq hid']
        exact hres.2.1
      · rw [hx, hone hres]
    · rw [Reserved, hne e hex]
      exact hres

/-- One call goes on, and one entry changes. -/
theorem Kept.change [Fintype P] [DecidableEq P] (h : s.Kept)
    (hinode : s'.inode = update s.inode x inode) (hsuper : s'.super = s.super)
    (hphase : s'.phase = update s.phase p ph) (husers : s'.users = update s.users x n)
    (hcount : inode.count + (s.phase p).held.count x + s.users x =
      (s.inode x).count + ph.held.count x + n)
    (hmount : inode.mount = (s.inode x).mount)
    (hheld : ∀ e, e ≠ x → ph.held.count e = (s.phase p).held.count e)
    (hid : (s.inode x).mount = true → inode.id = (s.inode x).id)
    (hother : ∀ p', p' ≠ p → x ∈ (s.phase p').held →
      inode.id = (s.inode x).id ∧ (s.Reserved x → inode.count = 1))
    (habove : nrInode ≤ x → inode.dev = 0) (hok : s'.PhaseOk ph) : s'.Kept := by
  have hx : s'.inode x = inode := by rw [hinode, Function.update_self]
  have hne : ∀ e, e ≠ x → s'.inode e = s.inode e := fun e he => by
    rw [hinode, Function.update_of_ne he]
  have hmounts : ∀ e, (s'.inode e).mount = (s.inode e).mount := fun e => by
    by_cases he : e = x
    · rw [he, hx, hmount]
    · rw [hne e he]
  have hids : ∀ e, (s.inode e).mount = true → (s'.inode e).id = (s.inode e).id := fun e he => by
    by_cases hex : e = x
    · rw [hex] at he ⊢
      rw [hx, hid he]
    · rw [hne e hex]
  refine ⟨fun e => ?_, fun p' => ?_, fun k e hk => ?_, fun e he => ?_, fun e he => ?_⟩
  · have heq := h.counted e
    have hsum := held_update hphase e
    rw [mountRef, hmounts]
    rw [mountRef] at heq
    by_cases hex : e = x
    · rw [hex] at heq hsum ⊢
      rw [hx, husers, Function.update_self]
      omega
    · rw [hne e hex, husers, Function.update_of_ne hex]
      have := hheld e hex
      omega
  · by_cases hp : p' = p
    · rw [hphase, hp, Function.update_self]
      exact hok
    · -- another call keeps what it relies on
      have heq : s'.phase p' = s.phase p' := by rw [hphase, Function.update_of_ne hp]
      rw [heq]
      exact h.frame hinode (fun k e _ => by rw [hsuper]) hid (h.phases p') (hother p' hp)
  · rw [hsuper] at hk ⊢
    obtain ⟨hmount', hdev⟩ := h.mounted k e hk
    exact ⟨by rw [hmounts, hmount'], hdev⟩
  · rw [hmounts] at he
    have hide := hids e he
    rw [MInode.dev_eq hide, MInode.num_eq hide]
    exact h.mounts e he
  · by_cases hex : e = x
    · rw [hex] at he ⊢
      rw [hx, habove he]
    · rw [hne e hex, h.above e he]

theorem Unique.same (h : s.Unique) (hid : ∀ e, (s'.inode e).id = (s.inode e).id)
    (himap : s'.imap = s.imap) : s'.Unique := by
  have hdev : ∀ e, (s'.inode e).dev = (s.inode e).dev := fun e => MInode.dev_eq (hid e)
  have hnum : ∀ e, (s'.inode e).num = (s.inode e).num := fun e => MInode.num_eq (hid e)
  constructor
  · intro e e' he he' hne heq
    rw [hdev] at hne
    rw [hid, hid] at heq
    exact h.once e e' he he' hne heq
  · intro e he hne
    rw [hdev] at hne
    rw [hdev, hnum, himap]
    exact h.bits e he hne

/-- An entry is cleared, and the bit of its inode perhaps too. -/
theorem Unique.clear (h : s.Unique) (hinode : s'.inode = update s.inode x inode)
    (hdev : inode.dev = 0) (himap : ∀ e < nrInode, e ≠ x → (s.inode e).dev ≠ 0 →
      s'.imap (s.inode e).dev (s.inode e).num = s.imap (s.inode e).dev (s.inode e).num) :
    s'.Unique := by
  have hne : ∀ e, (s'.inode e).dev ≠ 0 → e ≠ x ∧ s'.inode e = s.inode e := fun e he => by
    have hex : e ≠ x := by
      rintro rfl
      rw [hinode, Function.update_self] at he
      exact he hdev
    exact ⟨hex, by rw [hinode, Function.update_of_ne hex]⟩
  constructor
  · intro e e' he he' hdev' heq
    have hdev'' : (s'.inode e').dev ≠ 0 := by
      rw [← MInode.dev_eq heq]
      exact hdev'
    obtain ⟨-, heq₁⟩ := hne e hdev'
    obtain ⟨-, heq₂⟩ := hne e' hdev''
    rw [heq₁] at hdev' heq
    rw [heq₂] at heq
    exact h.once e e' he he' hdev' heq
  · intro e he hdev'
    obtain ⟨hex, heq⟩ := hne e hdev'
    rw [heq] at hdev' ⊢
    rw [himap e he hex hdev']
    exact h.bits e he hdev'

/-- An entry gets an inode that no entry has, and whose bit is set. -/
theorem Unique.fill (h : s.Unique) (hinode : s'.inode = update s.inode x inode)
    (hnew : ∀ e < nrInode, e ≠ x → (s.inode e).dev ≠ 0 → (s.inode e).id ≠ inode.id)
    (hbit : s'.imap inode.dev inode.num = true)
    (himap : ∀ dev n, s.imap dev n = true → s'.imap dev n = true) : s'.Unique := by
  have hx : s'.inode x = inode := by rw [hinode, Function.update_self]
  have hne : ∀ e, e ≠ x → s'.inode e = s.inode e := fun e he => by
    rw [hinode, Function.update_of_ne he]
  constructor
  · intro e e' he he' hdev heq
    by_cases h₁ : e = x <;> by_cases h₂ : e' = x
    · rw [h₁, h₂]
    · rw [h₁, hx] at hdev heq
      rw [hne e' h₂] at heq
      refine absurd heq.symm (hnew e' he' h₂ ?_)
      rw [← MInode.dev_eq heq]
      exact hdev
    · rw [h₂, hx, hne e h₁] at heq
      rw [hne e h₁] at hdev
      exact absurd heq (hnew e he h₁ hdev)
    · rw [hne e h₁] at hdev heq
      rw [hne e' h₂] at heq
      exact h.once e e' he he' hdev heq
  · intro e he hdev
    by_cases hex : e = x
    · rw [hex, hx]
      exact hbit
    · rw [hne e hex] at hdev ⊢
      exact himap _ _ (h.bits e he hdev)

/-- What a step leads to; `G` is what `iget` relies on. -/
structure Follows [Fintype P] (G : Prop) (s s' : InodeTable P) : Prop where
  kept : s'.Kept
  unique : G → s.Unique → s'.Unique
  recycled : ∀ p e, (s'.phase p).empty = some e → (s.phase p).empty ≠ some e →
    (s.inode e).count = 0 ∧ (s.inode e).dirt = false ∧ (s.inode e).lock = false

/-- No entry is given to another call than the one that goes on. -/
theorem recycled_update [DecidableEq P] (hphase : s'.phase = update s.phase p ph)
    (hempty : ∀ e, ph.empty = some e → (s.phase p).empty ≠ some e →
      (s.inode e).count = 0 ∧ (s.inode e).dirt = false ∧ (s.inode e).lock = false) :
    ∀ p e, (s'.phase p).empty = some e → (s.phase p).empty ≠ some e →
      (s.inode e).count = 0 ∧ (s.inode e).dirt = false ∧ (s.inode e).lock = false := by
  intro p' e he hne
  by_cases hp : p' = p
  · rw [hp] at he hne
    rw [hphase, Function.update_self] at he
    exact hempty e he hne
  · rw [hphase, Function.update_of_ne hp] at he
    exact absurd he hne

namespace Kept

variable [Fintype P] [DecidableEq P] {G : Prop}

/-- One call goes on, and one entry keeps its device and number. -/
theorem stay (h : s.Kept)
    (hinode : s'.inode = update s.inode x inode) (hsuper : s'.super = s.super)
    (hphase : s'.phase = update s.phase p ph) (husers : s'.users = update s.users x n)
    (himap : s'.imap = s.imap)
    (hcount : inode.count + (s.phase p).held.count x + s.users x =
      (s.inode x).count + ph.held.count x + n)
    (hmount : inode.mount = (s.inode x).mount) (hid : inode.id = (s.inode x).id)
    (hheld : ∀ e, e ≠ x → ph.held.count e = (s.phase p).held.count e)
    (hother : ∀ p', p' ≠ p → x ∈ (s.phase p').held → s.Reserved x → inode.count = 1)
    (hempty : ∀ e, ph.empty = some e → (s.phase p).empty = some e)
    (hok : s'.PhaseOk ph) : s.Follows G s' := by
  have hids : ∀ e, (s'.inode e).id = (s.inode e).id := fun e => by
    rw [hinode]
    by_cases hex : e = x
    · rw [hex, Function.update_self, hid]
    · rw [Function.update_of_ne hex]
  exact ⟨h.change hinode hsuper hphase husers hcount hmount hheld (fun _ => hid)
    (fun p' hp he => ⟨hid, hother p' hp he⟩) (fun hx => (MInode.dev_eq hid).trans (h.above x hx))
    hok, fun _ hu => hu.same hids himap,
    recycled_update hphase fun e he hne => absurd (hempty e he) hne⟩

/-- One call goes on, and no entry changes. -/
theorem goes (h : s.Kept) (hheld : ph.held = (s.phase p).held)
    (hempty : ∀ e, ph.empty = some e → (s.phase p).empty = some e)
    (hok : s.PhaseOk ph) : s.Follows G (s.setPhase p ph) :=
  h.stay (x := 0) (Function.update_eq_self ..).symm rfl rfl (Function.update_eq_self ..).symm rfl
    (by rw [hheld]; rfl) rfl rfl (fun _ _ => by rw [hheld]) (fun _ _ _ hres => hres.2.2) hempty hok

/-- An entry that keeps its device, number and references. -/
theorem touched (h : s.Kept) {f : MInode} (hid : f.id = (s.inode x).id)
    (hcount : f.count = (s.inode x).count) (hmount : f.mount = (s.inode x).mount)
    (hheld : ph.held = (s.phase p).held)
    (hempty : ∀ e, ph.empty = some e → (s.phase p).empty = some e)
    (hok : ((s.setInode x f).setPhase p ph).PhaseOk ph) :
    s.Follows G ((s.setInode x f).setPhase p ph) :=
  h.stay rfl rfl rfl (Function.update_eq_self ..).symm rfl (by rw [hheld, hcount]; rfl) hmount hid
    (fun _ _ => by rw [hheld]) (fun _ _ _ hres => hcount.trans hres.2.2) hempty hok

theorem chooseEmpty (h : s.Kept) {c : EmptyFor} (hheld : (s.phase p).held = [])
    (hc : ∀ id, c = .iget id → id.1 ≠ 0) (hs : s.chooseEmpty p c = some s') :
    s.Follows G s' := by
  rw [InodeTable.chooseEmpty] at hs
  split at hs
  case h_1 => cases hs
  case h_2 e last heq =>
    cases hs
    have hlt := s.emptyLoop_lt nrInode s.last none (by simp) e (by rw [heq]; rfl)
    refine h.stay (x := 0) (Function.update_eq_self ..).symm rfl rfl
      (Function.update_eq_self ..).symm rfl ?_ rfl rfl (fun _ _ => ?_)
      (fun _ _ _ hres => hres.2.2) (fun _ he => by cases he) ⟨hlt, hc⟩
    · rw [hheld]
      rfl
    · rw [hheld]
      rfl

/-- `get_empty_inode` clears an entry. -/
theorem recycle (h : s.Kept) (hcount : (s.inode e).count = 0) (hdirt : (s.inode e).dirt = false)
    (hlock : (s.inode e).lock = false) (hheld : (s.phase p).held = [])
    (hph : ph.held = [e]) (hempty : ph.empty = some e)
    (hok : ((s.setInode e { MInode.zero with count := 1 }).setPhase p ph).PhaseOk ph) :
    s.Follows G ((s.setInode e { MInode.zero with count := 1 }).setPhase p ph) := by
  obtain ⟨husers, hmount, hnone⟩ := h.free hcount
  refine ⟨h.change rfl rfl rfl (Function.update_eq_self e s.users).symm ?_ hmount.symm ?_ ?_ ?_
    (fun _ => rfl) hok,
    fun _ hu => hu.clear rfl rfl fun _ _ _ _ => rfl, recycled_update rfl fun e' he' _ => ?_⟩
  · rw [hheld, hph, hcount, List.count_singleton_self, List.count_nil]
  · intro e' he'
    rw [hheld, hph, List.count_nil, List.count_eq_zero, List.mem_singleton]
    exact he'
  · intro hm
    rw [hmount] at hm
    cases hm
  · exact fun p' _ hmem => absurd hmem (hnone p')
  · rw [hempty] at he'
    cases he'
    exact ⟨hcount, hdirt, hlock⟩

theorem emptyStep (h : s.Kept) {c : EmptyFor} (hp : s.phase p = .empties c e)
    (hs : s.emptyStep p c e = some s') : s.Follows G s' := by
  have hheld : (s.phase p).held = [] := by rw [hp]; rfl
  have hok := h.phases p
  rw [hp] at hok
  rw [InodeTable.emptyStep] at hs
  split at hs
  case isTrue => cases hs
  case isFalse hlock =>
    split at hs
    case isTrue =>
      split at hs
      case isTrue => cases hs
      case isFalse =>
        cases hs
        refine h.touched rfl rfl rfl hheld.symm (fun _ he => by cases he) hok
    case isFalse hdirt =>
      split at hs
      case isTrue => exact h.chooseEmpty hheld hok.2 hs
      case isFalse hcount =>
        cases hs
        have hlock : (s.inode e).lock = false := by simpa using hlock
        have hdirt : (s.inode e).dirt = false := by simpa using hdirt
        have hcount : (s.inode e).count = 0 := by simpa using hcount
        have hres : (s.setInode e { MInode.zero with count := 1 }).Reserved e := by
          rw [Reserved, setInode_apply, if_pos rfl]
          exact ⟨hok.1, rfl, rfl⟩
        cases c with
        | iget id =>
          exact h.recycle hcount hdirt hlock hheld rfl rfl ⟨hres, hok.2 id rfl, .inl rfl⟩
        | newInode dev => exact h.recycle hcount hdirt hlock hheld rfl rfl hres

/-- `new_inode` gives a number to its entry. -/
theorem numberStep (h : s.Kept) {dev : ℕ} (hp : s.phase p = .numbers dev e) :
    s.Follows G (s.numberStep p dev e) := by
  have hres := h.phases p
  rw [hp] at hres
  have hmem : e ∈ (s.phase p).held := by
    rw [hp]
    exact List.mem_singleton_self e
  have hsole := h.sole hmem hres.2.2.le
  rw [InodeTable.numberStep]
  split
  case h_1 => exact h.goes (by rw [hp]; rfl) (fun _ he => by cases he) ⟨nofun, trivial⟩
  case h_2 n hn =>
    have hbit := newNumber_spec hn
    refine ⟨h.change rfl rfl rfl rfl ?_ rfl ?_ ?_ ?_ (fun hx => ?_) trivial, fun _ hu => ?_,
      recycled_update rfl fun _ he _ => by cases he⟩
    · rw [hp, hres.2.2]
      show 1 + [e].count e + s.users e = 1 + [].count e + (s.users e + 1)
      rw [List.count_singleton_self, List.count_nil]
      omega
    · intro e' he'
      rw [hp]
      show [].count e' = [e].count e'
      rw [List.count_nil, eq_comm, List.count_eq_zero, List.mem_singleton]
      exact he'
    · intro hm
      rw [hsole.mount] at hm
      cases hm
    · exact fun p' hp' hmem' => absurd hmem' (hsole.other p' hp')
    · exact absurd hx (by have := hres.1; omega)
    · -- the bit was clear, so no entry has the number
      refine hu.fill rfl (fun e' he' _ hdev heq => ?_) ?_ fun dev' n' hset => ?_
      · have hset := hu.bits e' he' hdev
        have hdev' : (s.inode e').dev = dev := MInode.dev_eq heq
        have hnum' : (s.inode e').num = n := MInode.num_eq heq
        rw [hdev', hnum', hbit] at hset
        cases hset
      · show update s.imap dev (update (s.imap dev) n true) dev n = true
        rw [Function.update_self, Function.update_self]
      · show update s.imap dev (update (s.imap dev) n true) dev' n' = true
        rw [Function.update_apply]
        split
        case isTrue hd =>
          rw [Function.update_apply]
          split
          case isTrue => rfl
          case isFalse => rwa [← hd]
        case isFalse => exact hset

omit [DecidableEq P] in
/-- What a call relies on when an entry keeps its device and number. -/
theorem okInode (h : s.Kept) (hinode : s'.inode = update s.inode x inode)
    (hsuper : s'.super = s.super) (hid : inode.id = (s.inode x).id) (hph : s.PhaseOk ph)
    (hone : x ∈ ph.held → s.Reserved x → inode.count = 1) : s'.PhaseOk ph :=
  h.frame hinode (fun k e _ => by rw [hsuper]) (fun _ => hid) hph fun hx => ⟨hid, hone hx⟩

/-- `iget` gets a reference to an entry of the table. -/
theorem found (h : s.Kept) {empty : ℕ} (hheld : (s.phase p).held = [empty])
    (hdev : (s.inode e).dev ≠ 0) (hph : ph.held.Perm [e, empty])
    (hempty : ∀ e', ph.empty = some e' → (s.phase p).empty = some e') (hok : s.PhaseOk ph) :
    s.Follows G ((s.setInode e { s.inode e with count := (s.inode e).count + 1 }).setPhase p ph) := by
  have hne : ¬ s.Reserved e := fun hres => hdev hres.2.1
  refine h.stay rfl rfl rfl (Function.update_eq_self ..).symm rfl ?_ rfl rfl (fun e' he' => ?_)
    (fun _ _ _ hres => absurd hres hne) hempty ?_
  · rw [hheld, hph.count_eq, List.count_cons_self]
    show (s.inode e).count + 1 + [empty].count e + s.users e =
      (s.inode e).count + ([empty].count e + 1) + s.users e
    omega
  · rw [hheld, hph.count_eq, List.count_cons_of_ne he'.symm]
  · exact h.okInode (x := e) rfl rfl rfl hok fun _ hres => absurd hres hne

theorem foundStep (h : s.Kept) {empty : ℕ} (hheld : (s.phase p).held = [empty])
    (hempty : (s.phase p).empty = some empty) (hres : s.Reserved empty) (hdev : (s.inode e).dev ≠ 0)
    (hn : s.Names id₀ (s.inode e).id) : s.Follows G (s.foundStep p id₀ empty e) := by
  have hfound : s.PhaseOk (.puts empty .first (.found id₀ e)) := ⟨nofun, hn⟩
  rw [InodeTable.foundStep]
  split
  case isFalse =>
    exact h.found hheld hdev (List.Perm.swap ..) (fun _ he => by cases he) hfound
  case isTrue hmount =>
    split
    case h_1 => exact h.found hheld hdev (List.Perm.swap ..) (fun _ he => by cases he) hfound
    case h_2 k hk =>
      -- `sys_mount` does not take the root of a device, so the inode is the one asked for
      have hid : (s.inode e).id = id₀ := by
        obtain heq | ⟨k', e', -, -, heq⟩ := hn
        · exact heq
        · exact absurd (congrArg Prod.snd heq) (h.mounts e hmount).1
      exact h.found hheld hdev (.refl _) (fun _ he => hempty.trans he)
        ⟨nofun, hres, mountedOn_spec hk, hid⟩

/-- `iget` looks through the table, and takes its empty entry if the inode is not there. -/
theorem lookStep (h : s.Kept) {empty : ℕ} (hp : s.phase p = .looks id₀ id empty)
    (hg : G → s.find id = none → s.imap id.1 id.2 = true) :
    s.Follows G (s.lookStep p id₀ id empty) := by
  have hheld : (s.phase p).held = [empty] := by rw [hp]; rfl
  have hempty : (s.phase p).empty = some empty := by rw [hp]; rfl
  have hok := h.phases p
  rw [hp] at hok
  obtain ⟨hres, hdev, hn⟩ := hok
  rw [InodeTable.lookStep]
  split
  case h_2 e he =>
    obtain ⟨hlt, hid⟩ := find_spec he
    split
    case isTrue =>
      exact h.goes hheld.symm (fun _ he => hempty.trans he) ⟨hres, hdev, hn⟩
    case isFalse =>
      refine h.foundStep hheld hempty hres ?_ (by rwa [hid])
      rw [← hid] at hdev
      exact hdev
  case h_1 hnone =>
    have hsole := h.sole (by rw [hheld]; exact List.mem_singleton_self empty) hres.2.2.le
    have hmount : (s.inode empty).mount = true → { s.inode empty with
        dev := id.1, num := id.2, lock := true }.id = (s.inode empty).id := fun hm => by
      rw [hsole.mount] at hm
      cases hm
    refine ⟨h.change rfl rfl rfl (Function.update_eq_self empty s.users).symm ?_ rfl ?_ hmount
      (fun p' hp' hmem => absurd hmem (hsole.other p' hp')) (fun hx => ?_) ?_, fun hG hu => ?_,
      recycled_update rfl fun _ he _ => by cases he⟩
    · rw [hheld]
      rfl
    · intro e' _
      rw [hheld]
      rfl
    · exact absurd hx (by have := hres.1; omega)
    · -- the entry has the inode that was looked for
      have hid : ((s.setInode empty { s.inode empty with
          dev := id.1, num := id.2, lock := true }).inode empty).id = id := by
        rw [setInode_apply, if_pos rfl]
        rfl
      show Names _ id₀ ((s.setInode empty { s.inode empty with
          dev := id.1, num := id.2, lock := true }).inode empty).id
      rw [hid]
      refine hn.frame fun k e hk => ⟨rfl, congrArg MInode.id (Function.update_of_ne ?_ ..)⟩
      rintro rfl
      have hm := (h.mounted k e hk).1
      rw [hsole.mount] at hm
      cases hm
    · refine hu.fill rfl (fun e' he' _ _ => ?_) (hg hG hnone) fun _ _ hset => hset
      exact ne_of_find hnone e' he'

theorem waitStep (h : s.Kept) {empty : ℕ} (hp : s.phase p = .waits id₀ id empty e)
    (hs : s.waitStep p id₀ id empty e = some s') : s.Follows G s' := by
  have hheld : (s.phase p).held = [empty] := by rw [hp]; rfl
  have hempty : (s.phase p).empty = some empty := by rw [hp]; rfl
  have hok := h.phases p
  rw [hp] at hok
  obtain ⟨hres, hdev, hn⟩ := hok
  rw [InodeTable.waitStep] at hs
  split at hs
  case isTrue => cases hs
  case isFalse =>
    split at hs
    case isTrue =>
      cases hs
      exact h.goes hheld.symm (fun _ he => hempty.trans he) ⟨hres, hdev, hn⟩
    case isFalse hid =>
      cases hs
      have hid : (s.inode e).id = id := by simpa using hid
      refine h.foundStep hheld hempty hres ?_ (by rwa [hid])
      rw [← hid] at hdev
      exact hdev

/-! ### Steps of `iput` -/

omit [Fintype P] [DecidableEq P] in
theorem after_held (k : AfterPut) : (s.after k).held = k.held := by
  cases k <;> rfl

omit [Fintype P] [DecidableEq P] in
theorem after_empty {stage : PutStage} {k : AfterPut} {e' : ℕ}
    (he : (s.after k).empty = some e') : (InodePhase.puts e stage k).empty = some e' := by
  cases k with
  | exit => cases he
  | found id₀ e'' => cases he
  | mounted id₀ k empty => exact he

omit [Fintype P] [DecidableEq P] in
theorem puts_empty (stage stage' : PutStage) (k : AfterPut) :
    (InodePhase.puts e stage k).empty = (InodePhase.puts e stage' k).empty := by
  cases k <;> rfl

omit [DecidableEq P] in
/-- `iget` goes on with the device mounted on the inode that it was asked for. -/
theorem okAfter (h : s.Kept) {k : AfterPut} (hok : s.PutOk e k) : s.PhaseOk (s.after k) := by
  cases k with
  | exit => trivial
  | found id₀ e' => exact hok
  | mounted id₀ k empty =>
    obtain ⟨hres, hk, hid⟩ := hok
    exact ⟨hres, (h.mounted k e hk).2, .inr ⟨k, e, hk, hid, rfl⟩⟩

/-- `iput` puts a reference. -/
theorem putDone (h : s.Kept) {stage : PutStage} {k : AfterPut} (hp : s.phase p = .puts e stage k) :
    s.Follows G (s.putDone p e k) := by
  have hheld : (s.phase p).held = e :: k.held := by rw [hp]; rfl
  have hmem : e ∈ (s.phase p).held := by
    rw [hheld]
    exact List.mem_cons_self
  have hpos : 1 ≤ (s.inode e).count := by
    have hone := List.one_le_count_iff.mpr hmem
    have hle := s.count_le_held p e
    have heq := h.counted e
    omega
  -- an entry that is reserved is in one place only
  have hsole : s.Reserved e → s.Sole p e := fun hres => h.sole hmem hres.2.2.le
  have hok := h.phases p
  rw [hp] at hok
  rw [InodeTable.putDone, MInode.decCount_of_ne (by omega)]
  refine h.stay rfl rfl rfl (Function.update_eq_self ..).symm rfl ?_ rfl rfl (fun e' he' => ?_)
    (fun p' hp' hmem' hres => absurd hmem' ((hsole hres).other p' hp')) (fun e' he' => ?_) ?_
  · rw [hheld, after_held, List.count_cons_self]
    show (s.inode e).count - 1 + (k.held.count e + 1) + s.users e =
      (s.inode e).count + k.held.count e + s.users e
    omega
  · rw [hheld, after_held, List.count_cons_of_ne he'.symm]
  · rw [hp]
    exact after_empty he'
  · refine h.okInode (x := e) rfl rfl rfl (h.okAfter hok.2) fun hmem' hres => ?_
    rw [after_held] at hmem'
    have hone := (hsole hres).once
    have hpos' := List.one_le_count_iff.mpr hmem'
    rw [hheld, List.count_cons_self] at hone
    omega

/-- `iput` frees the inode, of which it has the last reference. -/
theorem freeInode (h : s.Kept) {k : AfterPut} {s₁ : InodeTable P}
    (hp : s.phase p = .puts e .truncates k) (hs : s.freeInode e = some s₁) :
    s.Follows G (s₁.setPhase p (s.after k)) := by
  have hheld : (s.phase p).held = e :: k.held := by rw [hp]; rfl
  have hmem : e ∈ (s.phase p).held := by
    rw [hheld]
    exact List.mem_cons_self
  have hok := h.phases p
  rw [hp] at hok
  have hdev := hok.1 nofun
  have hlt : e < nrInode := by
    by_contra hge
    exact hdev (h.above e (by omega))
  rw [InodeTable.freeInode, if_neg hdev] at hs
  split at hs
  case isTrue => cases hs
  case isFalse hcount =>
    split at hs
    case isTrue => cases hs
    case isFalse =>
      split at hs
      case isTrue => cases hs
      case isFalse =>
        cases hs
        have hsole := h.sole hmem (by omega)
        have heq := h.counted e
        have hhelde := s.count_le_held p e
        have hone := List.one_le_count_iff.mpr hmem
        have honce := hsole.once
        rw [hheld, List.count_cons_self] at honce hone hhelde
        have hnot : e ∉ (s.after k).held := by
          rw [after_held, ← List.count_eq_zero]
          omega
        have hmount : (s.inode e).mount = true → MInode.zero.id = (s.inode e).id := fun hm => by
          rw [hsole.mount] at hm
          cases hm
        refine ⟨h.change rfl rfl rfl (Function.update_eq_self e s.users).symm ?_
          hsole.mount.symm (fun e' he' => ?_) hmount
          (fun p' hp' hmem' => absurd hmem' (hsole.other p' hp')) (fun _ => rfl) ?_,
          fun _ hu => ?_, recycled_update rfl fun e' he' hne => ?_⟩
        · rw [hheld, after_held, List.count_cons_self]
          show 0 + (k.held.count e + 1) + s.users e = (s.inode e).count + k.held.count e + s.users e
          omega
        · rw [hheld, after_held, List.count_cons_of_ne he'.symm]
        · exact h.frame rfl (fun _ _ _ => rfl) hmount (h.okAfter hok.2) fun hx => absurd hx hnot
        · -- the other entries have other inodes
          refine hu.clear rfl rfl fun e' he' hne hdev' => ?_
          show update s.imap (s.inode e).dev (update (s.imap (s.inode e).dev) (s.inode e).num false)
            (s.inode e').dev (s.inode e').num = _
          by_cases hd : (s.inode e').dev = (s.inode e).dev
          · have hnum : (s.inode e').num ≠ (s.inode e).num := fun hnum =>
              hne (hu.once e' e he' hlt hdev' (Prod.ext hd hnum))
            rw [hd, Function.update_self, Function.update_of_ne hnum]
          · rw [Function.update_of_ne hd]
        · rw [hp] at hne
          exact absurd (after_empty he') hne

theorem putRepeat (h : s.Kept) {stage : PutStage} {k : AfterPut} (hp : s.phase p = .puts e stage k)
    (hdev : (s.inode e).dev ≠ 0) (hs : s.putRepeat p e k = some s') : s.Follows G s' := by
  have hok := h.phases p
  rw [hp] at hok
  have hheld : ∀ stage', (InodePhase.puts e stage' k).held = (s.phase p).held := fun stage' => by
    rw [hp]
    rfl
  have hempty : ∀ stage' e', (InodePhase.puts e stage' k).empty = some e' →
      (s.phase p).empty = some e' := fun stage' e' he' => by
    rw [hp, puts_empty stage stage']
    exact he'
  rw [InodeTable.putRepeat] at hs
  split at hs
  case isTrue =>
    cases hs
    exact h.putDone hp
  case isFalse =>
    split at hs
    case isTrue =>
      cases hs
      exact h.goes (hheld _) (hempty _) ⟨fun _ => hdev, hok.2⟩
    case isFalse =>
      split at hs
      case isTrue =>
        cases hs
        have hok' : s.PhaseOk (.puts e .writes k) := ⟨fun _ => hdev, hok.2⟩
        exact h.touched rfl rfl rfl (hheld _) (hempty _)
          (h.okInode (x := e) rfl rfl rfl hok' fun _ hres => hres.2.2)
      case isFalse =>
        cases hs
        exact h.putDone hp

theorem putStep (h : s.Kept) {stage : PutStage} {k : AfterPut} (hp : s.phase p = .puts e stage k)
    (hs : s.putStep p e k stage = some s') : s.Follows G s' := by
  have hok := h.phases p
  rw [hp] at hok
  cases stage with
  | first =>
    simp only [InodeTable.putStep] at hs
    split at hs
    case isTrue => cases hs
    case isFalse =>
      split at hs
      case isTrue => cases hs
      case isFalse =>
        split at hs
        case isTrue =>
          cases hs
          exact h.putDone hp
        case isFalse hdev =>
          split at hs
          case isTrue =>
            cases hs
            refine h.goes (by rw [hp]; rfl) (fun e' he' => ?_) ⟨fun _ => hdev, hok.2⟩
            rw [hp, puts_empty .first .again]
            exact he'
          case isFalse => exact h.putRepeat hp hdev hs
  | again =>
    simp only [InodeTable.putStep] at hs
    split at hs
    case isTrue => cases hs
    case isFalse => exact h.putRepeat hp (hok.1 nofun) hs
  | writes =>
    cases hs
    have hok' : s.PhaseOk (.puts e .again k) := ⟨fun _ => hok.1 nofun, hok.2⟩
    refine h.touched rfl rfl rfl (by rw [hp]; rfl) (fun e' he' => ?_)
      (h.okInode (x := e) rfl rfl rfl hok' fun _ hres => hres.2.2)
    rw [hp, puts_empty .writes .again]
    exact he'
  | truncates =>
    simp only [InodeTable.putStep, Option.map_eq_some_iff] at hs
    obtain ⟨s₁, hs₁, rfl⟩ := hs
    exact h.freeInode hp hs₁

/-! ### Other processes -/

omit [DecidableEq P] in
/-- An entry keeps its device, number and references. -/
theorem touch (h : s.Kept) {f : MInode} (hid : f.id = (s.inode e).id)
    (hcount : f.count = (s.inode e).count) (hmount : f.mount = (s.inode e).mount) :
    s.Follows G (s.setInode e f) := by
  have hcounts : ∀ k, ((s.setInode e f).inode k).count = (s.inode k).count := fun k => by
    rw [setInode_apply]
    split
    case isTrue hk => rw [hcount, hk]
    case isFalse => rfl
  have hmounts : ∀ k, ((s.setInode e f).inode k).mount = (s.inode k).mount := fun k => by
    rw [setInode_apply]
    split
    case isTrue hk => rw [hmount, hk]
    case isFalse => rfl
  have hids : ∀ k, ((s.setInode e f).inode k).id = (s.inode k).id := fun k => by
    rw [setInode_apply]
    split
    case isTrue hk => rw [hid, hk]
    case isFalse => rfl
  refine ⟨⟨fun k => ?_, fun p => ?_, fun k e' hk => ?_, fun k hk => ?_, fun k hk => ?_⟩,
    fun _ hu => hu.same hids rfl, fun p e' he' hne => absurd he' hne⟩
  · rw [hcounts, mountRef, hmounts]
    exact h.counted k
  · exact h.okInode (x := e) rfl rfl hid (h.phases p) fun _ hres => hcount.trans hres.2.2
  · rw [hmounts]
    exact h.mounted k e' hk
  · rw [hmounts] at hk
    rw [MInode.num_eq (hids k), MInode.dev_eq (hids k)]
    exact h.mounts k hk
  · rw [MInode.dev_eq (hids k)]
    exact h.above k hk

/-- A reference comes, or goes to a super block, which covers the entry from then on. -/
theorem use (h : s.Kept) {f : MInode} (super : ℕ → Super) (husers : s.users e ≠ 0)
    (hid : f.id = (s.inode e).id)
    (hcount : f.count + s.users e + s.mountRef e = (s.inode e).count + n + if f.mount then 1 else 0)
    (hsuper : ∀ k e, (s.super k).imount = some e → super k = s.super k)
    (hnew : ∀ k e', (super k).imount = some e' → (s.super k).imount = some e' ∨
      e' = e ∧ f.mount = true ∧ (super k).dev ≠ 0)
    (hmount : f.mount = true → (s.inode e).mount = true ∨ f.num ≠ rootIno ∧ f.dev ≠ 0)
    (hkeep : (s.inode e).mount = true → f.mount = true) :
    s.Follows G { (s.setInode e f).setUsers e n with super := super } := by
  have hids : ∀ k, ((s.setInode e f).inode k).id = (s.inode k).id := fun k => by
    rw [setInode_apply]
    split
    case isTrue hk => rw [hid, hk]
    case isFalse => rfl
  have hf : (s.setInode e f).inode e = f := (setInode_apply ..).trans (if_pos rfl)
  have hne : ∀ k, k ≠ e → (s.setInode e f).inode k = s.inode k := fun k hk =>
    (setInode_apply ..).trans (if_neg hk)
  refine ⟨⟨fun k => ?_, fun p => ?_, fun k e' hk => ?_, fun k hk => ?_, fun k hk => ?_⟩,
    fun _ hu => hu.same hids rfl, fun p e' he' hne => absurd he' hne⟩
  · have heq := h.counted k
    show ((s.setInode e f).inode k).count = update s.users e n k + s.held k +
      if ((s.setInode e f).inode k).mount then 1 else 0
    by_cases hk : k = e
    · rw [hk] at heq ⊢
      rw [hf, Function.update_self]
      omega
    · rw [hne k hk, Function.update_of_ne hk]
      exact heq
  · refine h.frame (x := e) rfl hsuper (fun _ => hid) (h.phases p) fun hmem => ⟨hid, fun hres => ?_⟩
    exact absurd (h.sole hmem hres.2.2.le).users husers
  · show ((s.setInode e f).inode e').mount = true ∧ (super k).dev ≠ 0
    obtain hold | ⟨rfl, hfm, hdev⟩ := hnew k e' hk
    · obtain ⟨hm, hdev⟩ := h.mounted k e' hold
      rw [hsuper k e' hold]
      refine ⟨?_, hdev⟩
      by_cases hk : e' = e
      · rw [hk, hf]
        exact hkeep (hk ▸ hm)
      · rw [hne e' hk, hm]
    · exact ⟨by rw [hf, hfm], hdev⟩
  · change ((s.setInode e f).inode k).mount = true at hk
    show ((s.setInode e f).inode k).num ≠ rootIno ∧ ((s.setInode e f).inode k).dev ≠ 0
    by_cases hke : k = e
    · rw [hke, hf] at hk ⊢
      obtain hold | hnew := hmount hk
      · rw [MInode.num_eq hid, MInode.dev_eq hid]
        exact h.mounts e hold
      · exact hnew
    · rw [hne k hke] at hk ⊢
      exact h.mounts k hk
  · show ((s.setInode e f).inode k).dev = 0
    rw [MInode.dev_eq (hids k)]
    exact h.above k hk

theorem step {a : InodeEvent P} (h : s.Kept) (hs : s.next a = some s') :
    s.Follows (s.InUse a) s' := by
  cases a with
  | iget p dev nr =>
    simp only [next] at hs
    split at hs
    case isFalse => cases hs
    case isTrue hp =>
      refine h.chooseEmpty (by rw [hp.1]; rfl) (fun id heq => ?_) hs
      cases heq
      exact hp.2
  | newInode p dev =>
    simp only [next] at hs
    split at hs
    case isFalse => cases hs
    case isTrue hp => exact h.chooseEmpty (by rw [hp.1]; rfl) (fun _ heq => by cases heq) hs
  | iput p e =>
    simp only [next] at hs
    split at hs
    case isFalse => cases hs
    case isTrue hp =>
      cases hs
      refine h.stay (x := e) (Function.update_eq_self ..).symm rfl rfl rfl rfl ?_ rfl rfl
        (fun e' he' => ?_) (fun _ _ _ hres => hres.2.2) (fun _ he => by cases he) ⟨nofun, trivial⟩
      · rw [hp.1]
        show (s.inode e).count + [].count e + s.users e =
          (s.inode e).count + [e].count e + (s.users e - 1)
        rw [List.count_singleton_self, List.count_nil]
        have := hp.2
        omega
      · rw [hp.1]
        show [e].count e' = [].count e'
        rw [List.count_nil, List.count_eq_zero, List.mem_singleton]
        exact he'
  | empty p =>
    simp only [next] at hs
    split at hs
    case h_1 c e hp => exact h.emptyStep hp hs
    case h_2 => cases hs
  | wrote p =>
    simp only [next] at hs
    split at hs
    case h_2 => cases hs
    case h_1 c e hp =>
      cases hs
      have hok := h.phases p
      rw [hp] at hok
      exact h.touched rfl rfl rfl (by rw [hp]; rfl) (fun _ he => by cases he) hok
  | number p =>
    simp only [next] at hs
    split at hs
    case h_2 => cases hs
    case h_1 dev e hp =>
      cases hs
      exact h.numberStep hp
  | look p =>
    simp only [next] at hs
    split at hs
    case h_2 => cases hs
    case h_1 id₀ id empty hp =>
      cases hs
      refine h.lookStep hp fun hg hnone => hg id ?_
      simp [toRead, hp, hnone]
  | wait p =>
    simp only [next] at hs
    split at hs
    case h_1 id₀ id empty e hp => exact h.waitStep hp hs
    case h_2 => cases hs
  | read p nlinks kind =>
    simp only [next] at hs
    split at hs
    case h_2 => cases hs
    case h_1 id₀ e hp =>
      cases hs
      have hok := h.phases p
      rw [hp] at hok
      have hok' : s.PhaseOk (.returned id₀ e) := hok
      exact h.touched rfl rfl rfl (by rw [hp]; rfl) (fun _ he => by cases he)
        (h.okInode (x := e) rfl rfl rfl hok' fun _ hres => hres.2.2)
  | put p =>
    simp only [next] at hs
    split at hs
    case h_1 e stage k hp => exact h.putStep hp hs
    case h_2 => cases hs
  | take p =>
    simp only [next] at hs
    split at hs
    case h_2 => cases hs
    case h_1 id₀ e hp =>
      cases hs
      refine h.stay (x := e) (Function.update_eq_self ..).symm rfl rfl rfl rfl ?_ rfl rfl
        (fun e' he' => ?_) (fun _ _ _ hres => hres.2.2) (fun _ he => by cases he) trivial
      · rw [hp]
        show (s.inode e).count + [e].count e + s.users e =
          (s.inode e).count + [].count e + (s.users e + 1)
        rw [List.count_singleton_self, List.count_nil]
        omega
      · rw [hp]
        show [].count e' = [e].count e'
        rw [List.count_nil, eq_comm, List.count_eq_zero, List.mem_singleton]
        exact he'
  | use e =>
    simp only [next] at hs
    split at hs
    case isTrue => cases hs
    case isFalse husers =>
      cases hs
      refine h.use s.super husers rfl ?_ (fun _ _ _ => rfl) (fun _ _ hk => .inl hk)
        (fun hm => .inl hm) fun hm => hm
      show (s.inode e).count + 1 + s.users e + s.mountRef e =
        (s.inode e).count + (s.users e + 1) + s.mountRef e
      omega
  | touch e nlinks dirt lock =>
    cases hs
    exact h.touch rfl rfl rfl
  | mount e k dev =>
    simp only [next] at hs
    split at hs
    case isTrue => cases hs
    case isFalse hno =>
      cases hs
      simp only [not_or] at hno
      obtain ⟨husers, hmount, hnum, hdev, hk, hdev'⟩ := hno
      have hk : (s.super k).imount = none := by simpa using hk
      have hother : ∀ k' e', (s.super k').imount = some e' → k' ≠ k := fun k' e' hk' => by
        rintro rfl
        rw [hk] at hk'
        cases hk'
      refine h.use _ husers rfl ?_ (fun k' e' hk' => Function.update_of_ne (hother k' e' hk') ..)
        (fun k' e' hk' => ?_) (fun _ => .inr ⟨hnum, hdev⟩) fun _ => rfl
      · rw [mountRef, if_neg hmount]
        show (s.inode e).count + s.users e + 0 = (s.inode e).count + (s.users e - 1) + 1
        omega
      · by_cases heq : k' = k
        · rw [heq, Function.update_self] at hk' ⊢
          exact .inr ⟨(Option.some.inj hk').symm, rfl, hdev'⟩
        · rw [Function.update_of_ne heq] at hk'
          exact .inl hk'

theorem start (h : (inodeTables P).init s) : s.Kept ∧ s.Unique := by
  obtain ⟨hinode, hsuper, husers, hphase⟩ := h
  refine ⟨⟨fun e => ?_, fun p => ?_, fun k e hk => ?_, fun e he => ?_, fun e _ => ?_⟩,
    fun e e' _ _ hdev => ?_, fun e _ hdev => ?_⟩
  · have hheld : s.held e = 0 := Finset.sum_eq_zero fun p _ => by rw [hphase p]; rfl
    rw [hheld, husers, mountRef, hinode]
    rfl
  · rw [hphase]
    trivial
  · rw [hsuper] at hk
    cases hk
  · rw [hinode] at he
    cases he
  · rw [hinode]
    rfl
  · rw [hinode] at hdev
    exact absurd rfl hdev
  · rw [hinode] at hdev
    exact absurd rfl hdev

theorem reach (hr : (inodeTables P).Reachable s) : s.Kept :=
  hr.invariant (fun _ h => (start h).1) fun _ _ _ h _ hs => (h.step hs).kept

theorem reach_unique (hr : (inodeTables P).Reach InUse s) : s.Kept ∧ s.Unique :=
  hr.invariant (I := fun s => s.Kept ∧ s.Unique) (fun _ h => start h)
    fun _ _ _ h hg hs => ⟨(h.1.step hs).kept, (h.1.step hs).unique hg h.2⟩

end Kept

end InodeTable

/-- `get_empty_inode` gives a call an entry only with `i_count` 0, clean and not locked, and
`iget` returns the inode it was asked for, or the root of the device mounted on it, in every
run.  If `iget` only reads inodes whose bit is set, then no inode is in two entries. -/
theorem inode_table {P : Type u} [Fintype P] [DecidableEq P] {s : InodeTable P} :
    ((inodeTables P).Reachable s →
      (∀ p id₀ e, s.phase p = .returned id₀ e → s.Names id₀ (s.inode e).id) ∧
      ∀ a s', s.next a = some s' → ∀ p e, (s'.phase p).empty = some e →
        (s.phase p).empty ≠ some e →
        (s.inode e).count = 0 ∧ (s.inode e).dirt = false ∧ (s.inode e).lock = false) ∧
    ((inodeTables P).Reach InodeTable.InUse s → ∀ e e', (s.inode e).count ≠ 0 →
      (s.inode e').count ≠ 0 → (s.inode e).dev ≠ 0 → (s.inode e).id = (s.inode e').id → e = e') := by
  constructor
  · intro hr
    have h := InodeTable.Kept.reach hr
    refine ⟨fun p id₀ e hp => ?_, fun a s' hs => (h.step hs).recycled⟩
    have hok := h.phases p
    rwa [hp] at hok
  · intro hr e e' _ _ hdev heq
    obtain ⟨h, hu⟩ := InodeTable.Kept.reach_unique hr
    have hlt : ∀ e, (s.inode e).dev ≠ 0 → e < nrInode := fun e he => by
      by_contra hge
      exact he (h.above e (by omega))
    exact hu.once e e' (hlt e hdev) (hlt e' (MInode.dev_eq heq ▸ hdev)) hdev heq

/-! ### Runs from a list of events -/

/-- Nothing is in memory; the device has 5 inodes, all in use. -/
def InodeTable.fresh : InodeTable Bool where
  inode _ := .zero
  super _ := ⟨0, none, false⟩
  imap _ _ := true
  ninodes _ := 5
  last := 0
  users _ := 0
  phase _ := .idle

theorem InodeTable.reach_fresh {G : InodeTable Bool → InodeEvent Bool → Prop} :
    (inodeTables Bool).Reach G .fresh :=
  .init ⟨fun _ => rfl, fun _ => rfl, fun _ => rfl, fun _ => rfl⟩

/-- `iget` of inode 5 of device 1. -/
def igetRun (p : Bool) : List (InodeEvent Bool) :=
  [.iget p 1 5, .empty p, .look p, .read p 1 .other]

theorem inode_table_returned : ∃ s : InodeTable Bool,
    System.runOf (System.guarded InodeTable.InUse InodeTable.next) (igetRun true) .fresh = some s ∧
    s.Names (1, 5) (s.inode 1).id ∧ (∀ e, (s.inode e).count ≠ 0 → (s.inode e).id = (1, 5) → 1 = e) := by
  have hrun : (System.runOf (System.guarded InodeTable.InUse InodeTable.next) (igetRun true)
      .fresh).any (fun s => decide (s.phase true = .returned (1, 5) 1 ∧ (s.inode 1).count = 1 ∧
        (s.inode 1).id = (1, 5))) = true := by
    decide +kernel
  obtain ⟨s, hs, hrun⟩ := (Option.any_eq_true _ _).mp hrun
  obtain ⟨hp, hcount, hid⟩ := of_decide_eq_true hrun
  have hreach : (inodeTables Bool).Reach InodeTable.InUse s :=
    .of_guarded (fun _ _ _ h => h) InodeTable.reach_fresh hs
  refine ⟨s, hs, (inode_table.1 (hreach.mono fun _ _ _ => trivial)).1 true (1, 5) 1 hp,
    fun e he heq => inode_table.2 hreach 1 e (by simp [hcount]) he ?_ (hid.trans heq.symm)⟩
  have hdev : (s.inode 1).dev = 1 := congrArg Prod.fst hid
  simp [hdev]

/-- The last link to inode 5 is removed, and one process is in `truncate` for it; another,
which has found the number before, waits in `iget` while the inode is written. -/
def twiceRun : List (InodeEvent Bool) := igetRun true ++
  [.take true, .touch 1 0 true false, .iput true 1, .put true, .touch 1 0 true true,
    .iget false 1 5, .empty false, .look false, .touch 1 0 false false, .put true,
    .wait false, .look false, .newInode true 1, .empty true, .number true]

/-- The inode is read again and given out again, even if `iget` is called only for inodes
whose bit is set. -/
theorem inode_table_twice : ¬ ∀ s : InodeTable Bool, (inodeTables Bool).Reach InodeTable.Called s →
    ∀ e e', (s.inode e).count ≠ 0 → (s.inode e').count ≠ 0 → (s.inode e).dev ≠ 0 →
      (s.inode e).id = (s.inode e').id → e = e' := by
  have hrun : (System.runOf (System.guarded InodeTable.Called InodeTable.next) twiceRun .fresh).any
      (fun s => decide ((s.inode 2).count = 1 ∧ (s.inode 3).count = 1 ∧ (s.inode 2).id = (1, 5) ∧
        (s.inode 3).id = (1, 5))) = true := by
    decide +kernel
  obtain ⟨s, hs, hrun⟩ := (Option.any_eq_true _ _).mp hrun
  obtain ⟨hcount, hcount', hid, hid'⟩ := of_decide_eq_true hrun
  intro h
  have hreach : (inodeTables Bool).Reach InodeTable.Called s :=
    .of_guarded (fun _ _ _ h => h) InodeTable.reach_fresh hs
  have hdev : (s.inode 2).dev = 1 := congrArg Prod.fst hid
  have heq := h s hreach 2 3 (by simp [hcount]) (by simp [hcount']) (by simp [hdev])
    (hid.trans hid'.symm)
  cases heq

end Fs
