/-
A pipe between one reader and one writer (`read_pipe` and `write_pipe` of fs/pipe.c).

* `Pipe`, `Reader`, `Writer` — the pipe inode, and a call on either side between two
  of its sleep points; every byte copy can sleep;
* `readPipe`, `writePipe` — what a call does up to its next sleep point;
* `Kept` — where each byte of the stream is, given the guard;
* `pipe_queue` — the size of the pipe in every run, and the order of the bytes in
  every run in which no byte is copied on one side while the other side still has
  its copy of that place to make;
* `pipe_queue_lost` — a reader that overtakes the writer's copy.

Design notes: the stream is kept beside the pipe, in `accepted` from the moment
`PIPE_HEAD` is moved, and in `delivered` from each `put_fs_byte` on.
-/
import Linux012.Runs
import Mathlib.Data.List.TakeDrop
import Mathlib.Data.Int.Notation
import Mathlib.Logic.Function.Basic

namespace Fs

open Function (update)

/-- `PAGE_SIZE`. -/
abbrev pageSize : ℕ := 4096

/-- `read_pipe` between two of its sleep points: the bytes it still asks for, and,
while it copies, the bytes left of this round and the place of the next one. -/
inductive Reader where
  | idle
  | looping (count : ℕ)
  | copying (count chars size : ℕ)
  deriving DecidableEq

/-- `write_pipe` between two of its sleep points: the bytes not yet accepted, and,
while it copies, the bytes left of this round and the place of the next one. -/
inductive Writer where
  | idle
  | looping (buf : List UInt8)
  | copying (buf chars : List UInt8) (size : ℕ)
  deriving DecidableEq

/-- The pipe inode and its two users. -/
structure Pipe where
  /-- `PIPE_HEAD` and `PIPE_TAIL` -/
  head : ℕ
  tail : ℕ
  /-- the page at `i_size` -/
  page : ℕ → UInt8
  iCount : ℕ
  reader : Reader
  writer : Writer
  /-- the bytes taken from the writer's buffers, and those put into the reader's, and
  the sum of the rounds of the reader (not in the source) -/
  accepted : List UInt8
  delivered : List UInt8
  taken : ℕ

namespace Pipe

/-- `PIPE_SIZE`. -/
def pipeSize (s : Pipe) : ℕ := (((s.head : ℤ) - s.tail) % pageSize).toNat

/-- `read_pipe`, up to its next sleep point; `signal` tells whether a signal is there. -/
def readPipe (s : Pipe) (signal : Bool) : Pipe :=
  match s.reader with
  | .idle => s
  | .looping count =>
    if count = 0 then { s with reader := .idle }
    else if s.pipeSize = 0 then
      if s.iCount ≠ 2 ∨ signal then { s with reader := .idle } else s
    else
      let chars := min (min (pageSize - s.tail) count) s.pipeSize
      { s with
        tail := (s.tail + chars) % pageSize
        reader := .copying (count - chars) chars s.tail
        taken := s.taken + chars }
  | .copying count chars size =>
    if chars = 0 then { s with reader := .looping count }
    else { s with
      reader := .copying count (chars - 1) (size + 1)
      delivered := s.delivered ++ [s.page size] }

/-- `write_pipe`, up to its next sleep point. -/
def writePipe (s : Pipe) : Pipe :=
  match s.writer with
  | .idle => s
  | .looping buf =>
    if buf = [] then { s with writer := .idle }
    else if pageSize - 1 - s.pipeSize = 0 then
      if s.iCount ≠ 2 then { s with writer := .idle } else s
    else
      let chars := min (min (pageSize - s.head) buf.length) (pageSize - 1 - s.pipeSize)
      { s with
        head := (s.head + chars) % pageSize
        writer := .copying (buf.drop chars) (buf.take chars) s.head
        accepted := s.accepted ++ buf.take chars }
  | .copying buf [] _ => { s with writer := .looping buf }
  | .copying buf (c :: chars) size =>
    { s with
      writer := .copying buf chars (size + 1)
      page := update s.page size c }

/-- After `get_pipe_inode`. -/
def start (page : ℕ → UInt8) : Pipe where
  head := 0
  tail := 0
  page := page
  iCount := 2
  reader := .idle
  writer := .idle
  accepted := []
  delivered := []
  taken := 0

end Pipe

/-- A step: a call on one side begins or goes on, or the inode gets or loses users. -/
inductive PipeEvent where
  | read (count : ℤ)
  | reader (signal : Bool)
  | write (buf : List UInt8)
  | writer
  | users (iCount : ℕ)

/-- The pipe after a step that can be made. -/
def Pipe.step (s : Pipe) : PipeEvent → Option Pipe
  | .read count => if s.reader = .idle then some { s with reader := .looping count.toNat } else none
  | .reader signal => some (s.readPipe signal)
  | .write buf => if s.writer = .idle then some { s with writer := .looping buf } else none
  | .writer => some s.writePipe
  | .users iCount => some { s with iCount := iCount }

/-- The runs of a pipe. -/
def pipe : System Pipe PipeEvent where
  init s := ∃ page, s = .start page
  step s e s' := s.step e = some s'

/-- The reader has place `i` of the page still to copy. -/
def Reader.Pending (i : ℕ) : Reader → Prop
  | .idle | .looping _ => False
  | .copying _ chars size => size ≤ i ∧ i < size + chars

instance (i : ℕ) : (r : Reader) → Decidable (r.Pending i)
  | .idle | .looping _ => inferInstanceAs (Decidable False)
  | .copying _ chars size => inferInstanceAs (Decidable (size ≤ i ∧ i < size + chars))

/-- The writer has place `i` of the page still to copy. -/
def Writer.Pending (i : ℕ) : Writer → Prop
  | .idle | .looping _ => False
  | .copying _ chars size => size ≤ i ∧ i < size + chars.length

instance (i : ℕ) : (w : Writer) → Decidable (w.Pending i)
  | .idle | .looping _ => inferInstanceAs (Decidable False)
  | .copying _ chars size => inferInstanceAs (Decidable (size ≤ i ∧ i < size + chars.length))

/-- The place the next byte comes from, or goes to. -/
def Reader.place : Reader → Option ℕ
  | .idle | .looping _ => none
  | .copying _ chars size => if chars = 0 then none else some size

def Writer.place : Writer → Option ℕ
  | .idle | .looping _ => none
  | .copying _ chars size => if chars = [] then none else some size

/-- A byte is copied from, or to, a place that the other side has no copy to make of. -/
def PipeEvent.Guard (s : Pipe) : PipeEvent → Prop
  | .reader _ => ∀ i, s.reader.place = some i → ¬ s.writer.Pending i
  | .writer => ∀ i, s.writer.place = some i → ¬ s.reader.Pending i
  | .read _ | .write _ | .users _ => True

instance (s : Pipe) : (e : PipeEvent) → Decidable (e.Guard s)
  | .reader _ => decidable_of_iff (s.reader.place.all fun i => decide (¬ s.writer.Pending i)) <| by
    simp [PipeEvent.Guard, Option.all_eq_true]
  | .writer => decidable_of_iff (s.writer.place.all fun i => decide (¬ s.reader.Pending i)) <| by
    simp [PipeEvent.Guard, Option.all_eq_true]
  | .read _ | .write _ | .users _ => inferInstanceAs (Decidable True)

/-! ### The counts -/

/-- The bytes a reader has taken and not yet put. -/
def Reader.left : Reader → ℕ
  | .idle | .looping _ => 0
  | .copying _ chars _ => chars

/-- The bytes a writer has accepted and not yet stored. -/
def Writer.left : Writer → ℕ
  | .idle | .looping _ => 0
  | .copying _ chars _ => chars.length

namespace Pipe

variable {s s' : Pipe}

/-- The pointers follow the counts, in every run. -/
structure Counted (s : Pipe) : Prop where
  head : s.head = s.accepted.length % pageSize
  tail : s.tail = s.taken % pageSize
  taken : s.taken ≤ s.accepted.length
  size : s.accepted.length ≤ s.taken + (pageSize - 1)
  left : s.delivered.length + s.reader.left = s.taken

namespace Counted

theorem pipeSize (h : s.Counted) : s.pipeSize + s.taken = s.accepted.length := by
  have hsize := h.size
  have htaken := h.taken
  rw [Pipe.pipeSize, h.head, h.tail]
  simp only [pageSize] at hsize ⊢
  omega

theorem start (page : ℕ → UInt8) : (Pipe.start page).Counted := by
  constructor <;> simp [Pipe.start, Reader.left]

theorem readPipe (h : s.Counted) (signal : Bool) : (s.readPipe signal).Counted := by
  have hps := h.pipeSize
  obtain ⟨hhead, htail, htaken, hsize, hleft⟩ := h
  rw [Pipe.readPipe]
  split
  case h_1 => exact ⟨hhead, htail, htaken, hsize, hleft⟩
  case h_2 count hr =>
    rw [hr, Reader.left] at hleft
    split
    case isTrue => exact ⟨hhead, htail, htaken, hsize, hleft⟩
    case isFalse =>
      split
      case isTrue =>
        split
        case isTrue => exact ⟨hhead, htail, htaken, hsize, hleft⟩
        case isFalse => exact ⟨hhead, htail, htaken, hsize, by rwa [hr, Reader.left]⟩
      case isFalse =>
        constructor
        · exact hhead
        · show (s.tail + _) % pageSize = (s.taken + _) % pageSize
          rw [htail, Nat.mod_add_mod]
        · show s.taken + _ ≤ s.accepted.length
          omega
        · show s.accepted.length ≤ s.taken + _ + _
          omega
        · show s.delivered.length + min (min (pageSize - s.tail) count) s.pipeSize = s.taken + _
          omega
  case h_3 count chars size hr =>
    rw [hr, Reader.left] at hleft
    split
    case isTrue hc =>
      exact ⟨hhead, htail, htaken, hsize, by rw [hc] at hleft; exact hleft⟩
    case isFalse hc =>
      refine ⟨hhead, htail, htaken, hsize, ?_⟩
      show (s.delivered ++ [_]).length + (chars - 1) = s.taken
      rw [List.length_append, List.length_singleton]
      omega

theorem writePipe (h : s.Counted) : s.writePipe.Counted := by
  have hps := h.pipeSize
  obtain ⟨hhead, htail, htaken, hsize, hleft⟩ := h
  rw [Pipe.writePipe]
  split
  case h_1 => exact ⟨hhead, htail, htaken, hsize, hleft⟩
  case h_2 buf hw =>
    split
    case isTrue => exact ⟨hhead, htail, htaken, hsize, hleft⟩
    case isFalse =>
      split
      case isTrue =>
        split
        case isTrue => exact ⟨hhead, htail, htaken, hsize, hleft⟩
        case isFalse => exact ⟨hhead, htail, htaken, hsize, hleft⟩
      case isFalse =>
        have hlen : (s.accepted ++ buf.take (min (min (pageSize - s.head) buf.length)
            (pageSize - 1 - s.pipeSize))).length = s.accepted.length +
              min (min (pageSize - s.head) buf.length) (pageSize - 1 - s.pipeSize) := by
          rw [List.length_append, List.length_take]
          omega
        constructor
        · show (s.head + _) % pageSize = (s.accepted ++ _).length % pageSize
          rw [hlen, hhead, Nat.mod_add_mod]
        · exact htail
        · show s.taken ≤ (s.accepted ++ _).length
          rw [hlen]
          omega
        · show (s.accepted ++ _).length ≤ s.taken + _
          rw [hlen]
          omega
        · exact hleft
  case h_3 => exact ⟨hhead, htail, htaken, hsize, hleft⟩
  case h_4 => exact ⟨hhead, htail, htaken, hsize, hleft⟩

theorem step {e : PipeEvent} (h : s.Counted) (hs : s.step e = some s') : s'.Counted := by
  cases e with
  | read count =>
    simp only [Pipe.step] at hs
    split at hs
    case isFalse => cases hs
    case isTrue hr =>
      cases hs
      obtain ⟨hhead, htail, htaken, hsize, hleft⟩ := h
      exact ⟨hhead, htail, htaken, hsize, by rw [hr] at hleft; exact hleft⟩
  | reader signal =>
    cases hs
    exact h.readPipe signal
  | write buf =>
    simp only [Pipe.step] at hs
    split at hs
    case isFalse => cases hs
    case isTrue =>
      cases hs
      exact ⟨h.head, h.tail, h.taken, h.size, h.left⟩
  | writer =>
    cases hs
    exact h.writePipe
  | users iCount =>
    cases hs
    exact ⟨h.head, h.tail, h.taken, h.size, h.left⟩

theorem reach (hr : pipe.Reachable s) : s.Counted := by
  refine hr.invariant ?_ fun _ _ _ h _ hs => h.step hs
  rintro s ⟨page, rfl⟩
  exact start page

end Counted

/-! ### The bytes -/

/-- Every byte of the stream that has been stored and not yet put is in its place. -/
structure Kept (s : Pipe) : Prop where
  counted : s.Counted
  delivered : s.delivered <+: s.accepted
  /-- the reader copies from the end of what it has put -/
  reader : ∀ count chars size, s.reader = .copying count chars size →
    size + chars ≤ pageSize ∧ (0 < chars → size = s.delivered.length % pageSize)
  /-- the writer copies the end of what it has accepted -/
  writer : ∀ buf chars size, s.writer = .copying buf chars size →
    chars <:+ s.accepted ∧ size + chars.length ≤ pageSize ∧
      (chars ≠ [] → size = (s.accepted.length - chars.length) % pageSize)
  page : ∀ i, s.delivered.length ≤ i → i < s.accepted.length - s.writer.left →
    s.accepted[i]? = some (s.page (i % pageSize))

namespace Kept

theorem start (page : ℕ → UInt8) : (Pipe.start page).Kept := by
  constructor
  · exact .start page
  · exact List.prefix_rfl
  · exact fun _ _ _ h => by cases h
  · exact fun _ _ _ h => by cases h
  · exact fun i _ hi => absurd hi (by simp [Pipe.start])

/-- A reader that is not at work has put all it has taken. -/
theorem length_of_left (h : s.Kept) (hleft : s.reader.left = 0) :
    s.delivered.length = s.taken := by
  have hc := h.counted.left
  omega

/-- A call on the reader's side that copies nothing now. -/
theorem setReader (h : s.Kept) {r : Reader} (hr : s.reader.left = 0)
    (hcopy : ∀ count chars size, r = .copying count chars size → chars = 0 ∧ size ≤ pageSize)
    (hleft : r.left = 0) : ({ s with reader := r } : Pipe).Kept := by
  obtain ⟨⟨hhead, htail, htaken, hsize, hl⟩, hdel, -, hw, hpage⟩ := h
  refine ⟨⟨hhead, htail, htaken, hsize, by rw [hr] at hl; rw [← hl]; exact congrArg _ hleft⟩, hdel,
    fun count chars size heq => ?_, hw, hpage⟩
  obtain ⟨hzero, hle⟩ := hcopy count chars size heq
  exact ⟨by omega, fun hpos => by omega⟩

/-- The reader takes a round of `chars` bytes. -/
theorem take {count chars : ℕ} (h : s.Kept) (hr : s.reader.left = 0)
    (hchars : chars ≤ pageSize - s.tail) (hsize : chars ≤ s.pipeSize) :
    ({ s with
      tail := (s.tail + chars) % pageSize
      reader := .copying count chars s.tail
      taken := s.taken + chars } : Pipe).Kept := by
  have hps := h.counted.pipeSize
  have hlen := h.length_of_left hr
  obtain ⟨⟨hhead, htail, htaken, hroom, hl⟩, hdel, -, hw, hpage⟩ := h
  have hlt : s.tail < pageSize := by
    rw [htail]
    exact Nat.mod_lt _ (by decide)
  constructor
  · constructor
    · exact hhead
    · show (s.tail + _) % pageSize = (s.taken + _) % pageSize
      rw [htail, Nat.mod_add_mod]
    · show s.taken + chars ≤ s.accepted.length
      omega
    · show s.accepted.length ≤ s.taken + chars + _
      omega
    · show s.delivered.length + chars = s.taken + chars
      omega
  · exact hdel
  · intro count' chars' size' heq
    cases heq
    refine ⟨by omega, fun _ => ?_⟩
    rw [htail, ← hlen]
  · exact hw
  · exact hpage

/-- The reader puts a byte that the writer has stored. -/
theorem put {count chars size : ℕ} (h : s.Kept) (hr : s.reader = .copying count (chars + 1) size)
    (hw : ¬ s.writer.Pending size) :
    ({ s with
      reader := .copying count chars (size + 1)
      delivered := s.delivered ++ [s.page size] } : Pipe).Kept := by
  obtain ⟨hle, hat⟩ := h.reader count (chars + 1) size hr
  have hat := hat (by omega)
  have hl := h.counted.left
  rw [hr, Reader.left] at hl
  have htaken := h.counted.taken
  have hroom := h.counted.size
  -- the byte is not one of those that the writer has still to store
  have hlt : s.delivered.length < s.accepted.length - s.writer.left := by
    by_contra hge
    cases hwr : s.writer with
    | idle => rw [hwr, Writer.left] at hge; omega
    | looping buf => rw [hwr, Writer.left] at hge; omega
    | copying buf cs place =>
      rw [hwr, Writer.left] at hge
      obtain ⟨-, hple, hplace⟩ := h.writer buf cs place hwr
      have hne : cs ≠ [] := by
        rintro rfl
        rw [List.length_nil] at hge
        omega
      have hplace := hplace hne
      rw [hwr] at hw
      refine hw ⟨?_, ?_⟩ <;> simp only [pageSize] at * <;> omega
  have hbyte := h.page _ (Nat.le_refl _) hlt
  rw [← hat] at hbyte
  obtain ⟨⟨hhead, htail, htaken, hroom, -⟩, hdel, -, hw, hpage⟩ := h
  constructor
  · refine ⟨hhead, htail, htaken, hroom, ?_⟩
    show (s.delivered ++ [_]).length + chars = s.taken
    rw [List.length_append, List.length_singleton]
    omega
  · obtain ⟨rest, hrest⟩ := hdel
    show s.delivered ++ [s.page size] <+: s.accepted
    rw [← hrest, List.getElem?_append_right (Nat.le_refl _), Nat.sub_self] at hbyte
    cases rest with
    | nil => cases hbyte
    | cons c rest =>
      rw [List.getElem?_cons_zero] at hbyte
      obtain rfl := Option.some.inj hbyte
      rw [← hrest]
      exact ⟨rest, by rw [List.append_assoc, List.singleton_append]⟩
  · intro count' chars' size' heq
    cases heq
    refine ⟨by omega, fun hpos => ?_⟩
    show size + 1 = (s.delivered ++ [_]).length % pageSize
    rw [List.length_append, List.length_singleton, ← Nat.mod_add_mod, ← hat]
    exact (Nat.mod_eq_of_lt (by omega)).symm
  · exact hw
  · intro i hi hlt'
    refine hpage i ?_ hlt'
    have hi : (s.delivered ++ [_]).length ≤ i := hi
    rw [List.length_append, List.length_singleton] at hi
    omega

theorem readPipe (h : s.Kept) (signal : Bool) (hg : (PipeEvent.reader signal).Guard s) :
    (s.readPipe signal).Kept := by
  rw [Pipe.readPipe]
  split
  case h_1 => exact h
  case h_2 count hr =>
    have hleft : s.reader.left = 0 := by rw [hr, Reader.left]
    split
    case isTrue => exact h.setReader hleft (fun _ _ _ heq => by cases heq) rfl
    case isFalse =>
      split
      case isTrue =>
        split
        case isTrue => exact h.setReader hleft (fun _ _ _ heq => by cases heq) rfl
        case isFalse => exact h
      case isFalse => exact h.take hleft (by omega) (by omega)
  case h_3 count chars size hr =>
    split
    case isTrue hc =>
      refine h.setReader ?_ (fun _ _ _ heq => by cases heq) rfl
      rw [hr, Reader.left, hc]
    case isFalse hc =>
      obtain ⟨chars, rfl⟩ := Nat.exists_eq_succ_of_ne_zero hc
      exact h.put hr (hg size (by rw [hr]; rfl))

/-- A call on the writer's side that copies nothing now. -/
theorem setWriter (h : s.Kept) {w : Writer} (hw : s.writer.left = 0)
    (hcopy : ∀ buf chars size, w ≠ .copying buf chars size) (hleft : w.left = 0) :
    ({ s with writer := w } : Pipe).Kept := by
  obtain ⟨⟨hhead, htail, htaken, hsize, hl⟩, hdel, hr, -, hpage⟩ := h
  refine ⟨⟨hhead, htail, htaken, hsize, hl⟩, hdel, hr, fun buf chars size heq => ?_,
    fun i hi hlt => hpage i hi ?_⟩
  · exact absurd heq (hcopy buf chars size)
  · rw [hw]
    have hlt : i < s.accepted.length - w.left := hlt
    omega

/-- The writer accepts a round of bytes. -/
theorem accept {chars : List UInt8} (h : s.Kept) (buf : List UInt8) (hw : s.writer.left = 0)
    (hchars : chars.length ≤ pageSize - s.head)
    (hroom : chars.length ≤ pageSize - 1 - s.pipeSize) :
    ({ s with
      head := (s.head + chars.length) % pageSize
      writer := .copying buf chars s.head
      accepted := s.accepted ++ chars } : Pipe).Kept := by
  have hps := h.counted.pipeSize
  obtain ⟨⟨hhead, htail, htaken, hsize, hl⟩, hdel, hr, -, hpage⟩ := h
  have hlt : s.head < pageSize := by
    rw [hhead]
    exact Nat.mod_lt _ (by decide)
  constructor
  · constructor
    · show (s.head + _) % pageSize = (s.accepted ++ chars).length % pageSize
      rw [List.length_append, hhead, Nat.mod_add_mod]
    · exact htail
    · show s.taken ≤ (s.accepted ++ chars).length
      rw [List.length_append]
      omega
    · show (s.accepted ++ chars).length ≤ s.taken + _
      rw [List.length_append]
      omega
    · exact hl
  · exact hdel.trans (List.prefix_append _ _)
  · exact hr
  · intro buf' chars' size' heq
    cases heq
    refine ⟨List.suffix_append _ _, by omega, fun _ => ?_⟩
    show s.head = ((s.accepted ++ chars).length - chars.length) % pageSize
    rw [List.length_append, Nat.add_sub_cancel, hhead]
  · intro i hi hlt'
    have hlt' : i < (s.accepted ++ chars).length - chars.length := hlt'
    rw [List.length_append, Nat.add_sub_cancel] at hlt'
    show (s.accepted ++ chars)[i]? = _
    rw [List.getElem?_append_left hlt']
    exact hpage i hi (by rw [hw]; exact hlt')

/-- The writer stores a byte where the reader has nothing left to copy. -/
theorem store {buf chars : List UInt8} {c : UInt8} {size : ℕ} (h : s.Kept)
    (hw : s.writer = .copying buf (c :: chars) size) (hr : ¬ s.reader.Pending size) :
    ({ s with
      writer := .copying buf chars (size + 1)
      page := update s.page size c } : Pipe).Kept := by
  obtain ⟨⟨old, hold⟩, hle, hat⟩ := h.writer buf (c :: chars) size hw
  have hat := hat (by simp)
  have hroom := h.counted.size
  have hl := h.counted.left
  have htaken := h.counted.taken
  rw [List.length_cons] at hle hat
  have hlen : s.accepted.length = old.length + (chars.length + 1) := by
    rw [← hold, List.length_append, List.length_cons]
  have hsize : size = old.length % pageSize := by
    rw [hat, hlen, Nat.add_sub_cancel]
  -- the byte that stood there before has been put
  have hput : old.length < s.delivered.length + pageSize := by
    by_contra hge
    cases hrd : s.reader with
    | idle => rw [hrd, Reader.left] at hl; simp only [pageSize] at *; omega
    | looping count => rw [hrd, Reader.left] at hl; simp only [pageSize] at *; omega
    | copying count left place =>
      rw [hrd, Reader.left] at hl
      obtain ⟨hple, hplace⟩ := h.reader count left place hrd
      rw [hrd] at hr
      have hplace := hplace (by simp only [pageSize] at *; omega)
      refine hr ⟨?_, ?_⟩ <;> simp only [pageSize] at * <;> omega
  obtain ⟨hcount, hdel, hrd, -, hpage⟩ := h
  constructor
  · exact ⟨hcount.head, hcount.tail, hcount.taken, hcount.size, hcount.left⟩
  · exact hdel
  · exact hrd
  · intro buf' chars' size' heq
    cases heq
    refine ⟨⟨old ++ [c], by rw [List.append_assoc, List.singleton_append]; exact hold⟩, by omega,
      fun hne => ?_⟩
    show size + 1 = (s.accepted.length - chars.length) % pageSize
    have hpos := List.length_pos_iff.mpr hne
    rw [show s.accepted.length - chars.length = old.length + 1 by omega, ← Nat.mod_add_mod, ← hsize]
    exact (Nat.mod_eq_of_lt (by omega)).symm
  · intro i hi hlt
    have hlt : i < s.accepted.length - chars.length := hlt
    show s.accepted[i]? = some (update s.page size c (i % pageSize))
    by_cases hio : i = old.length
    · rw [hio, ← hsize, Function.update_self, ← hold, List.getElem?_append_right (Nat.le_refl _),
        Nat.sub_self, List.getElem?_cons_zero]
    · have hi : s.delivered.length ≤ i := hi
      have hne : i % pageSize ≠ size := by
        rw [hsize]
        simp only [pageSize] at *
        omega
      rw [Function.update_of_ne hne]
      refine hpage i hi ?_
      rw [hw, Writer.left, List.length_cons]
      omega

theorem writePipe (h : s.Kept) (hg : PipeEvent.writer.Guard s) : s.writePipe.Kept := by
  rw [Pipe.writePipe]
  split
  case h_1 => exact h
  case h_2 buf hw =>
    have hleft : s.writer.left = 0 := by rw [hw, Writer.left]
    split
    case isTrue => exact h.setWriter hleft (fun _ _ _ heq => by cases heq) rfl
    case isFalse =>
      split
      case isTrue =>
        split
        case isTrue => exact h.setWriter hleft (fun _ _ _ heq => by cases heq) rfl
        case isFalse => exact h
      case isFalse =>
        have hlen : (buf.take (min (min (pageSize - s.head) buf.length)
            (pageSize - 1 - s.pipeSize))).length =
              min (min (pageSize - s.head) buf.length) (pageSize - 1 - s.pipeSize) := by
          rw [List.length_take]
          omega
        have hkept := h.accept (buf.drop (min (min (pageSize - s.head) buf.length)
          (pageSize - 1 - s.pipeSize))) hleft (by rw [hlen]; omega)
            (by rw [hlen]; omega)
        rwa [hlen] at hkept
  case h_3 buf size hw =>
    refine h.setWriter ?_ (fun _ _ _ heq => by cases heq) rfl
    rw [hw, Writer.left, List.length_nil]
  case h_4 buf c chars size hw => exact h.store hw (hg size (by rw [hw]; rfl))

theorem step {e : PipeEvent} (h : s.Kept) (hg : e.Guard s) (hs : s.step e = some s') :
    s'.Kept := by
  cases e with
  | read count =>
    simp only [Pipe.step] at hs
    split at hs
    case isFalse => cases hs
    case isTrue hr =>
      cases hs
      exact h.setReader (by rw [hr, Reader.left]) (fun _ _ _ heq => by cases heq) rfl
  | reader signal =>
    cases hs
    exact h.readPipe signal hg
  | write buf =>
    simp only [Pipe.step] at hs
    split at hs
    case isFalse => cases hs
    case isTrue hw =>
      cases hs
      exact h.setWriter (by rw [hw, Writer.left]) (fun _ _ _ heq => by cases heq) rfl
  | writer =>
    cases hs
    exact h.writePipe hg
  | users iCount =>
    cases hs
    exact ⟨⟨h.counted.head, h.counted.tail, h.counted.taken, h.counted.size, h.counted.left⟩,
      h.delivered, h.reader, h.writer, h.page⟩

theorem reach (hr : pipe.Reach (fun s e => e.Guard s) s) : s.Kept := by
  refine hr.invariant ?_ fun _ _ _ h hg hs => h.step hg hs
  rintro s ⟨page, rfl⟩
  exact start page

end Kept

end Pipe

theorem Pipe.reach_start {G : Pipe → PipeEvent → Prop} : pipe.Reach G (.start fun _ => 0) :=
  .init ⟨_, rfl⟩

end Fs
