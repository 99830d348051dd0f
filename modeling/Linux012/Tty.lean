/-
Terminals (tty_io.c, tty_ioctl.c, console.c, pty.c, serial.c, rs_io.s and keyboard.S of
kernel/chr_drv).

* `TtyQueue`, `TtyStruct` — the queues and what a terminal holds;
* `Cooked`, `Con`, `Write`, `Read` — the points between the steps of `copy_to_cooked`,
  `con_write`, `tty_write` and `tty_read`, and `run` for each, the next step;
* `Terminals` — the terminals and the calls in progress: `stack` is the call that runs, with
  the calls it made and the interrupts that came, the latest first;
* `terminals` — the runs.

Design notes: an interrupt may come between any two steps. `PUTCH` is one step, and `GETCH` too,
but for that of `con_write`, which is two. Of a console only the state of its escape sequences is
kept; what is drawn is left out.
-/
import Linux012.Runs
import Linux012.RingBuffer
import Mathlib.Data.Fin.VecNotation

namespace Tty

open Function (update)

/-! ### The queues -/

/-- `struct tty_queue`, without `proc_list`. -/
structure TtyQueue where
  data : BitVec 32
  ring : RingBuffer 1023 (BitVec 8)
  /-- the characters put and not flushed or edited away, and those taken; how often a full
  queue was put to, and how often an empty one was taken from (not in the source) -/
  put : List (BitVec 8)
  got : List (BitVec 8)
  overrun : ℕ
  underrun : ℕ

namespace TtyQueue

/-- `PUTCH`. -/
def putch (q : TtyQueue) (c : BitVec 8) : TtyQueue :=
  { q with
    ring := q.ring.push c
    put := q.put ++ [c]
    overrun := if q.ring.Full then q.overrun + 1 else q.overrun }

/-- `PUTCH` of several characters. -/
def putAll (q : TtyQueue) (cs : List (BitVec 8)) : TtyQueue := cs.foldl putch q

/-- `INC(tail)`, after which the character at the tail is taken. -/
def incTail (q : TtyQueue) : TtyQueue :=
  { q with
    ring := q.ring.pop
    got := q.got ++ [q.ring.front]
    underrun := if q.ring.Empty then q.underrun + 1 else q.underrun }

/-- `DEC(head)`. -/
def decHead (q : TtyQueue) : TtyQueue :=
  { q with
    ring := q.ring.unpush
    put := q.put.dropLast
    underrun := if q.ring.Empty then q.underrun + 1 else q.underrun }

/-- `flush`. -/
def flush (q : TtyQueue) : TtyQueue := { q with ring := q.ring.flush, put := q.got }

/-- No character was overwritten, and none was taken that was not there. -/
structure Sound (q : TtyQueue) : Prop where
  overrun : q.overrun = 0
  underrun : q.underrun = 0
  kept : q.put = q.got ++ q.ring.contents

variable {q : TtyQueue} {c : BitVec 8} {cs : List (BitVec 8)}

theorem contents_putch (c : BitVec 8) (h : ¬ q.ring.Full) :
    (q.putch c).ring.contents = q.ring.contents ++ [c] := RingBuffer.contents_push c h

theorem contents_incTail (h : ¬ q.ring.Empty) :
    q.ring.contents = q.ring.front :: q.incTail.ring.contents := RingBuffer.contents_pop h

theorem contents_decHead (h : ¬ q.ring.Empty) :
    q.ring.contents = q.decHead.ring.contents ++ [q.ring.last] := RingBuffer.contents_unpush h

theorem left_putch (c : BitVec 8) (h : ¬ q.ring.Full) :
    (q.putch c).ring.left + 1 = q.ring.left := by
  have hcount : (q.putch c).ring.count = q.ring.count + 1 := RingBuffer.count_push c h
  have hle := (q.putch c).ring.count_le
  rw [RingBuffer.left_eq, RingBuffer.left_eq]
  omega

theorem left_incTail (h : ¬ q.ring.Empty) : q.incTail.ring.left = q.ring.left + 1 := by
  have hcount : q.incTail.ring.count + 1 = q.ring.count := RingBuffer.count_pop h
  have hle := q.ring.count_le
  rw [RingBuffer.left_eq, RingBuffer.left_eq]
  omega

theorem left_decHead (h : ¬ q.ring.Empty) : q.decHead.ring.left = q.ring.left + 1 := by
  have hcount : q.decHead.ring.count + 1 = q.ring.count := RingBuffer.count_unpush h
  have hle := q.ring.count_le
  rw [RingBuffer.left_eq, RingBuffer.left_eq]
  omega

theorem Sound.setData (hq : q.Sound) (data : BitVec 32) :
    ({ q with data := data } : TtyQueue).Sound := ⟨hq.overrun, hq.underrun, hq.kept⟩

theorem Sound.putch (hq : q.Sound) (c : BitVec 8) (h : ¬ q.ring.Full) : (q.putch c).Sound := by
  refine ⟨?_, hq.underrun, ?_⟩
  · rw [TtyQueue.putch]
    simp only [if_neg h]
    exact hq.overrun
  · rw [contents_putch c h]
    show q.put ++ [c] = q.got ++ (q.ring.contents ++ [c])
    rw [hq.kept, List.append_assoc]

theorem Sound.putAll (hq : q.Sound) (h : cs.length ≤ q.ring.left) : (q.putAll cs).Sound := by
  induction cs generalizing q with
  | nil => exact hq
  | cons c cs ih =>
    rw [List.length_cons] at h
    have hfull : ¬ q.ring.Full := by
      rw [RingBuffer.Full]
      omega
    refine ih (hq.putch c hfull) ?_
    have hleft := left_putch c hfull
    omega

theorem Sound.incTail (hq : q.Sound) (h : ¬ q.ring.Empty) : q.incTail.Sound := by
  refine ⟨hq.overrun, ?_, ?_⟩
  · rw [TtyQueue.incTail]
    simp only [if_neg h]
    exact hq.underrun
  · show q.put = (q.got ++ [q.ring.front]) ++ q.incTail.ring.contents
    rw [hq.kept, contents_incTail h, List.append_assoc, List.singleton_append]

theorem Sound.decHead (hq : q.Sound) (h : ¬ q.ring.Empty) : q.decHead.Sound := by
  refine ⟨hq.overrun, ?_, ?_⟩
  · rw [TtyQueue.decHead]
    simp only [if_neg h]
    exact hq.underrun
  · show q.put.dropLast = q.got ++ q.decHead.ring.contents
    rw [hq.kept, contents_decHead h, ← List.append_assoc, List.dropLast_concat]

theorem not_full_of_lt {n : ℕ} (h : n < q.ring.left) : ¬ q.ring.Full := by
  rw [RingBuffer.Full]
  omega

theorem contents_flush (q : TtyQueue) : q.flush.ring.contents = [] :=
  RingBuffer.empty_iff_contents.mp rfl

theorem left_flush (q : TtyQueue) : q.flush.ring.left = 1023 := by
  rw [RingBuffer.left_eq, ← RingBuffer.length_contents, contents_flush]
  rfl

theorem Sound.flush (hq : q.Sound) : q.flush.Sound := by
  refine ⟨hq.overrun, hq.underrun, ?_⟩
  rw [contents_flush, List.append_nil]
  rfl

end TtyQueue

/-! ### The terminal -/

def ICRNL : BitVec 32 := 0x100
def INLCR : BitVec 32 := 0x40
def IGNCR : BitVec 32 := 0x80
def IUCLC : BitVec 32 := 0x200
def IXON : BitVec 32 := 0x400

def OPOST : BitVec 32 := 0x1
def OLCUC : BitVec 32 := 0x2
def ONLCR : BitVec 32 := 0x4
def OCRNL : BitVec 32 := 0x8
def ONLRET : BitVec 32 := 0x20

def CBAUD : BitVec 32 := 0xf

def ISIG : BitVec 32 := 0x1
def ICANON : BitVec 32 := 0x2
def ECHO : BitVec 32 := 0x8
def ECHOCTL : BitVec 32 := 0x200
def ECHOKE : BitVec 32 := 0x800

/-- `struct termios`, without `c_line`. -/
structure Termios where
  iflag : BitVec 32
  oflag : BitVec 32
  cflag : BitVec 32
  lflag : BitVec 32
  cc : Fin 17 → BitVec 8

def VINTR : Fin 17 := 0
def VQUIT : Fin 17 := 1
def VERASE : Fin 17 := 2
def VKILL : Fin 17 := 3
def VEOF : Fin 17 := 4
def VMIN : Fin 17 := 6
def VSTART : Fin 17 := 8
def VSTOP : Fin 17 := 9
def VSUSP : Fin 17 := 10

namespace Termios

variable (m : Termios) (c : BitVec 8)

/-- `L_FLAG`, `I_FLAG` and `O_FLAG`. -/
def L (flag : BitVec 32) : Prop := m.lflag &&& flag ≠ 0
def I (flag : BitVec 32) : Prop := m.iflag &&& flag ≠ 0
def O (flag : BitVec 32) : Prop := m.oflag &&& flag ≠ 0

/-- `C_HUP`: the speed is 0. -/
def Hup : Prop := m.cflag &&& CBAUD = 0

/-- The signed character `c` is a special character that is not disabled. -/
def Is (i : Fin 17) : Prop := m.cc i ≠ 0 ∧ c.toInt = (m.cc i).toNat

/-- A line ends with `c`. -/
def Delim : Prop := c = 10 ∨ m.Is c VEOF

instance (flag : BitVec 32) : Decidable (m.L flag) := inferInstanceAs (Decidable (_ ≠ _))
instance (flag : BitVec 32) : Decidable (m.I flag) := inferInstanceAs (Decidable (_ ≠ _))
instance (flag : BitVec 32) : Decidable (m.O flag) := inferInstanceAs (Decidable (_ ≠ _))
instance : Decidable m.Hup := inferInstanceAs (Decidable (_ = _))
instance (i : Fin 17) : Decidable (m.Is c i) := inferInstanceAs (Decidable (_ ∧ _))
instance : DecidablePred m.Delim := fun c => inferInstanceAs (Decidable (c = 10 ∨ m.Is c VEOF))

end Termios

/-- `INIT_C_CC`. -/
def INIT_C_CC : Fin 17 → BitVec 8 :=
  ![3, 28, 127, 21, 4, 0, 1, 0, 17, 19, 26, 0, 18, 15, 23, 22, 0]

/-- `DEF_TERMIOS`. -/
def DEF_TERMIOS : Termios where
  iflag := ICRNL
  oflag := OPOST ||| ONLCR
  cflag := 0
  lflag := IXON ||| ISIG ||| ICANON ||| ECHO ||| ECHOCTL ||| ECHOKE
  cc := INIT_C_CC

/-- The states of an escape sequence. -/
inductive VcState where
  | normal | esc | square | getpars | gotpars | funckey | setterm | setgraph
  /-- -1 -/
  | other
  deriving DecidableEq

/-- What a console keeps of an escape sequence. -/
structure Vc where
  state : VcState
  npar : ℕ
  deriving DecidableEq

structure TtyStruct where
  termios : Termios
  stopped : Bool
  readQ : TtyQueue
  writeQ : TtyQueue
  secondary : TtyQueue
  vc : Vc
  /-- the characters that `con_write` has interpreted (not in the source) -/
  shown : List (BitVec 8)

namespace TtyStruct

/-- `data` of the secondary queue is the number of line ends in it, and of those among `held`,
which are counted and not yet put in it. -/
def Counts (y : TtyStruct) (held : List (BitVec 8)) : Prop :=
  y.secondary.data =
    BitVec.ofNat 32 ((y.secondary.ring.contents ++ held).countP (y.termios.Delim ·))

/-- A terminal that no call is at work on. -/
structure Settled (y : TtyStruct) : Prop where
  readQ : y.readQ.Sound
  writeQ : y.writeQ.Sound
  secondary : y.secondary.Sound
  counts : y.Counts []
  shown : y.shown = y.writeQ.got

end TtyStruct

/-- What `write` of a terminal is. -/
inductive TtyKind (T : Type) where
  /-- `con_write` -/
  | console
  /-- `rs_write` -/
  | serial
  /-- `mpty_write` and `spty_write`, with the other side -/
  | master (other : T)
  | slave (other : T)
  deriving DecidableEq

/-- What does not change. -/
structure TtyTable (T : Type) where
  kind : T → TtyKind T
  pair (t t' : T) : kind t = .master t' ↔ kind t' = .slave t
  /-- `tolower` and `toupper`, which read outside of their table for characters from 128 on -/
  lower : BitVec 8 → BitVec 8
  upper : BitVec 8 → BitVec 8

/-! ### The calls -/

/-- `copy_to_cooked`. -/
inductive Cooked where
  | top
  /-- before `FULL(tty->secondary)`, and before `GETCH` -/
  | room
  | get
  | got (c : BitVec 8)
  /-- the loop of the kill character, and the 127s to put for a character that is erased -/
  | kill
  | rub (cs : List (BitVec 8)) (again : Bool)
  | dec (again : Bool)
  /-- the characters to put as the echo of `c` -/
  | echo (cs : List (BitVec 8)) (c : BitVec 8)
  | store (c : BitVec 8)
  deriving DecidableEq

/-- `con_write`. -/
inductive Con where
  | enter
  | test
  /-- before the two steps of `GETCH` -/
  | take
  | inc (c : BitVec 8)
  | interp (c : BitVec 8)
  deriving DecidableEq

/-- `tty_write`. -/
inductive Write where
  | outer
  | asleep
  | signal
  | inner
  /-- there was room, and a character is fetched and put -/
  | fetch
  | after
  deriving DecidableEq

/-- `tty_read`. -/
inductive Read where
  | outer
  /-- with interrupts off -/
  | test
  | asleep
  | take
  /-- `put_fs_byte` and the tests of the inner loop -/
  | more (c : BitVec 8)
  | done
  deriving DecidableEq

/-- A call in progress, with its variables. -/
inductive Frame (T : Type) where
  | cooked (t : T) (pc : Cooked)
  | con (t : T) (nr : ℕ) (pc : Con)
  | pty (src dst : T)
  | write (t : T) (buf : List (BitVec 8)) (pc : Write)
  | read (t : T) (nr minimum : ℕ) (buf : List (BitVec 8)) (pc : Read)
  deriving DecidableEq

/-- The terminals, and `cr_flag` of `tty_write`. -/
structure Ttys (T : Type) where
  tty : T → TtyStruct
  crFlag : Bool

variable {T : Type} [DecidableEq T]

namespace Ttys

def modify (s : Ttys T) (t : T) (f : TtyStruct → TtyStruct) : Ttys T :=
  { s with tty := update s.tty t (f (s.tty t)) }

@[simp] theorem modify_tty_self (s : Ttys T) (t : T) (f : TtyStruct → TtyStruct) :
    (s.modify t f).tty t = f (s.tty t) := Function.update_self _ _ _

theorem modify_tty_of_ne {t t' : T} (h : t' ≠ t) (s : Ttys T) (f : TtyStruct → TtyStruct) :
    (s.modify t f).tty t' = s.tty t' := Function.update_of_ne h _ _

/-- What `f` keeps of a terminal, the change keeps of all. -/
theorem modify_keeps {β : Type} (g : TtyStruct → β) (s : Ttys T) (t t' : T)
    {f : TtyStruct → TtyStruct} (h : ∀ y, g (f y) = g y) :
    g ((s.modify t f).tty t') = g (s.tty t') := by
  by_cases ht : t' = t
  · subst ht
    rw [modify_tty_self, h]
  · rw [modify_tty_of_ne ht]

def modifyRead (s : Ttys T) (t : T) (f : TtyQueue → TtyQueue) : Ttys T :=
  s.modify t fun y => { y with readQ := f y.readQ }

def modifyWrite (s : Ttys T) (t : T) (f : TtyQueue → TtyQueue) : Ttys T :=
  s.modify t fun y => { y with writeQ := f y.writeQ }

def modifySecondary (s : Ttys T) (t : T) (f : TtyQueue → TtyQueue) : Ttys T :=
  s.modify t fun y => { y with secondary := f y.secondary }

@[simp] theorem modifyRead_secondary (s : Ttys T) (t t' : T) (f : TtyQueue → TtyQueue) :
    ((s.modifyRead t f).tty t').secondary = (s.tty t').secondary :=
  modify_keeps TtyStruct.secondary s t t' fun _ => rfl

@[simp] theorem modifyRead_termios (s : Ttys T) (t t' : T) (f : TtyQueue → TtyQueue) :
    ((s.modifyRead t f).tty t').termios = (s.tty t').termios :=
  modify_keeps TtyStruct.termios s t t' fun _ => rfl

@[simp] theorem modifyWrite_secondary (s : Ttys T) (t t' : T) (f : TtyQueue → TtyQueue) :
    ((s.modifyWrite t f).tty t').secondary = (s.tty t').secondary :=
  modify_keeps TtyStruct.secondary s t t' fun _ => rfl

@[simp] theorem modifyWrite_termios (s : Ttys T) (t t' : T) (f : TtyQueue → TtyQueue) :
    ((s.modifyWrite t f).tty t').termios = (s.tty t').termios :=
  modify_keeps TtyStruct.termios s t t' fun _ => rfl

end Ttys

/-- `tty->write(tty)`. -/
def TtyKind.write (t : T) : TtyKind T → List (Frame T)
  | .console => [.con t 0 .enter]
  -- `rs_write` enables the transmit interrupt
  | .serial => []
  | .master other => [.pty t other]
  | .slave other => [.pty t other]

namespace Cooked

/-- The translations of a character; none is one that is ignored. -/
def translate (K : TtyTable T) (m : Termios) (c : BitVec 8) : Option (BitVec 8) :=
  let c' :=
    if c = 13 then if m.I ICRNL then some 10 else if m.I IGNCR then none else some c
    else if c = 10 ∧ m.I INLCR then some 13
    else some c
  c'.map fun c => if m.I IUCLC then K.lower c else c

/-- The 127s that take a character off the screen. -/
def rubOut (c : BitVec 8) : List (BitVec 8) := if c.toInt < 32 then [127, 127] else [127]

/-- The echo of a character. -/
def echoed (m : Termios) (c : BitVec 8) : List (BitVec 8) :=
  if c = 10 then [10, 13]
  else if c.toInt < 32 then if m.L ECHOCTL then [94, c + 64] else []
  else [c]

/-- `EMPTY(secondary)`, or its last character ends a line. -/
def AtStart (y : TtyStruct) : Prop :=
  y.secondary.ring.Empty ∨ y.termios.Delim y.secondary.ring.last

instance (y : TtyStruct) : Decidable (AtStart y) := inferInstanceAs (Decidable (_ ∨ _))

/-- A character is erased. -/
def erase (y : TtyStruct) (again : Bool) : Cooked :=
  if y.termios.L ECHO then .rub (rubOut y.secondary.ring.last) again else .dec again

/-- A translated character. -/
def dispatch (K : TtyTable T) (s : Ttys T) (t : T) (c : BitVec 8) : Ttys T × List (Frame T) :=
  let y := s.tty t
  let m := y.termios
  if m.L ICANON ∧ m.Is c VKILL then (s, [.cooked t .kill])
  else if m.L ICANON ∧ m.Is c VERASE then
    if AtStart y then (s, [.cooked t .top]) else (s, [.cooked t (erase y false)])
  else if m.I IXON ∧ m.Is c VSTOP then
    (s.modify t fun y => { y with stopped := true }, (K.kind t).write t ++ [.cooked t .top])
  else if m.I IXON ∧ m.Is c VSTART then
    (s.modify t fun y => { y with stopped := false }, (K.kind t).write t ++ [.cooked t .top])
  -- `kill_pg`
  else if m.L ISIG ∧ (m.Is c VINTR ∨ m.Is c VQUIT ∨ m.Is c VSUSP) then (s, [.cooked t .top])
  else
    let s := if m.Delim c then s.modifySecondary t fun q => { q with data := q.data + 1 } else s
    (s, [.cooked t (if m.L ECHO then .echo (echoed m c) c else .store c)])

/-- The next step of `copy_to_cooked`, with the calls that replace it. -/
def run (K : TtyTable T) (s : Ttys T) (t : T) : Cooked → Ttys T × List (Frame T)
  | .top => if (s.tty t).readQ.ring.Empty then (s, []) else (s, [.cooked t .room])
  | .room => if (s.tty t).secondary.ring.Full then (s, []) else (s, [.cooked t .get])
  | .get => (s.modifyRead t .incTail, [.cooked t (.got (s.tty t).readQ.ring.front)])
  | .got c =>
    match translate K (s.tty t).termios c with
    | none => (s, [.cooked t .top])
    | some c => dispatch K s t c
  | .kill =>
    if AtStart (s.tty t) then (s, [.cooked t .top])
    else (s, [.cooked t (erase (s.tty t) true)])
  | .rub (c :: cs) again => (s.modifyWrite t (·.putch c), [.cooked t (.rub cs again)])
  | .rub [] again => (s, (K.kind t).write t ++ [.cooked t (.dec again)])
  | .dec again =>
    (s.modifySecondary t .decHead, [.cooked t (if again then .kill else .top)])
  | .echo (x :: cs) c => (s.modifyWrite t (·.putch x), [.cooked t (.echo cs c)])
  | .echo [] c => (s, (K.kind t).write t ++ [.cooked t (.store c)])
  | .store c => (s.modifySecondary t (·.putch c), [.cooked t .top])

end Cooked

/-- `RESPONSE`. -/
def RESPONSE : List (BitVec 8) := [27, 91, 63, 49, 59, 50, 99]

def NPAR : ℕ := 16

namespace Vc

/-- The state in which `con_write` takes a character: 24 and 26 end a sequence. -/
def entry (v : Vc) (c : BitVec 8) : VcState := if c = 24 ∨ c = 26 then .normal else v.state

/-- The state after `ESC c`, where `[`, `(`, `)`, `P` and `#` go on. -/
def afterEsc (c : BitVec 8) : VcState :=
  if c = 91 then .square
  else if c = 40 ∨ c = 41 then .setgraph
  else if c = 80 then .setterm
  else if c = 35 then .other
  else .normal

/-- The parameters of a sequence: `;`, a digit, or its last character. -/
def getpars (npar : ℕ) (c : BitVec 8) : Vc :=
  if c = 59 ∧ npar < NPAR - 1 then ⟨.getpars, npar + 1⟩
  else if 48 ≤ c.toInt ∧ c.toInt ≤ 57 then ⟨.getpars, npar⟩
  else ⟨.normal, npar⟩

/-- The state of the escape sequence after a character. -/
def next (v : Vc) (c : BitVec 8) : Vc :=
  match v.entry c with
  | .normal => if c = 27 then ⟨.esc, v.npar⟩ else ⟨.normal, v.npar⟩
  | .esc => ⟨afterEsc c, v.npar⟩
  | .square => if c = 91 then ⟨.funckey, 0⟩ else if c = 63 then ⟨.getpars, 0⟩ else getpars 0 c
  | .getpars => getpars v.npar c
  | .gotpars | .funckey | .setterm | .setgraph | .other => ⟨.normal, v.npar⟩

/-- `ESC Z`, which is answered. -/
def Responds (v : Vc) (c : BitVec 8) : Prop := v.entry c = .esc ∧ c = 90

/-- `ESC c`, which resets the terminal. -/
def Resets (v : Vc) (c : BitVec 8) : Prop := v.entry c = .esc ∧ c = 99

instance (v : Vc) (c : BitVec 8) : Decidable (v.Responds c) := inferInstanceAs (Decidable (_ ∧ _))
instance (v : Vc) (c : BitVec 8) : Decidable (v.Resets c) := inferInstanceAs (Decidable (_ ∧ _))

end Vc

namespace Con

/-- A character is interpreted. -/
def interpret (y : TtyStruct) (c : BitVec 8) : TtyStruct :=
  { y with
    termios := if y.vc.Resets c then DEF_TERMIOS else y.termios
    -- the answer of `respond`
    readQ := if y.vc.Responds c then y.readQ.putAll RESPONSE else y.readQ
    vc := y.vc.next c
    shown := y.shown ++ [c] }

/-- The next step of `con_write`. -/
def run (s : Ttys T) (t : T) (nr : ℕ) : Con → Ttys T × List (Frame T)
  | .enter => (s, [.con t (s.tty t).writeQ.ring.count .test])
  | .test =>
    if nr = 0 ∨ (s.tty t).stopped = true then (s, []) else (s, [.con t (nr - 1) .take])
  | .take => (s, [.con t nr (.inc (s.tty t).writeQ.ring.front)])
  | .inc c => (s.modifyWrite t .incTail, [.con t nr (.interp c)])
  | .interp c =>
    (s.modify t (interpret · c),
      if (s.tty t).vc.Responds c then [.cooked t .top, .con t nr .test] else [.con t nr .test])

end Con

/-- The next step of `pty_copy`, where a signal may be there. -/
def ptyCopy (s : Ttys T) (src dst : T) (signal : Bool) : Ttys T × List (Frame T) :=
  if (s.tty src).stopped = true ∨ (s.tty src).writeQ.ring.Empty then (s, [.cooked dst .top])
  else if (s.tty dst).readQ.ring.Full then
    if (s.tty dst).secondary.ring.Full then (s, [.cooked dst .top])
    else (s, [.cooked dst .top, .pty src dst])
  else
    let c := (s.tty src).writeQ.ring.front
    ((s.modifyWrite src .incTail).modifyRead dst (·.putch c),
      if signal then [.cooked dst .top] else [.pty src dst])

namespace Write

/-- A character of the user with the flags of `c_oflag`: the character to put, whether it is
the carriage return before a newline, and `cr_flag`. -/
def post (K : TtyTable T) (m : Termios) (crFlag : Bool) (c : BitVec 8) :
    BitVec 8 × Bool × Bool :=
  if m.O OPOST then
    let c :=
      if c = 13 ∧ m.O OCRNL then 10 else if c = 10 ∧ m.O ONLRET then 13 else c
    if c = 10 ∧ crFlag = false ∧ m.O ONLCR then (13, true, true)
    else (if m.O OLCUC then K.upper c else c, false, false)
  else (c, false, false)

/-- The next step of `tty_write`. -/
def run (K : TtyTable T) (s : Ttys T) (t : T) (buf : List (BitVec 8)) (signal : Bool) :
    Write → Ttys T × List (Frame T)
  | .outer =>
    if buf = [] then (s, [])
    -- `sleep_if_full`
    else if (s.tty t).writeQ.ring.Full then (s, [.write t buf .asleep])
    else (s, [.write t buf .signal])
  | .asleep =>
    if signal = true ∨ 128 ≤ (s.tty t).writeQ.ring.left then (s, [.write t buf .signal])
    else (s, [.write t buf .asleep])
  | .signal => if signal then (s, []) else (s, [.write t buf .inner])
  | .inner =>
    if buf = [] ∨ (s.tty t).writeQ.ring.Full then
      (s, (K.kind t).write t ++ [.write t buf .after])
    else (s, [.write t buf .fetch])
  | .fetch =>
    match buf with
    | [] => (s, [])
    | c :: cs =>
      let (c', again, crFlag) := post K (s.tty t).termios s.crFlag c
      ({ s.modifyWrite t (·.putch c') with crFlag := crFlag },
        [.write t (if again then c :: cs else cs) .inner])
  | .after => if buf = [] then (s, []) else (s, [.write t buf .outer])

end Write

namespace Read

/-- `minimum` at the start. -/
def minimum (m : Termios) (nr : ℕ) : ℕ :=
  if m.L ICANON ∨ m.cc VMIN = 0 then nr else min (m.cc VMIN).toNat nr

/-- Nothing is there to be read. -/
def Waits (y : TtyStruct) : Prop :=
  y.secondary.ring.Empty ∨ (y.termios.L ICANON ∧ ¬ y.readQ.ring.Full ∧ y.secondary.data = 0)

instance (y : TtyStruct) : Decidable (Waits y) := inferInstanceAs (Decidable (_ ∨ _))

/-- The other side of a pseudo-terminal is made to write before a read. -/
def pull (t : T) : TtyKind T → List (Frame T)
  | .console => []
  | .serial => []
  | .master other => [.pty other t]
  | .slave other => [.pty other t]

/-- The master of a slave has hung up. -/
def HungUp (s : Ttys T) : TtyKind T → Prop
  | .console | .serial | .master _ => False
  | .slave other => (s.tty other).termios.Hup

instance (s : Ttys T) : (k : TtyKind T) → Decidable (HungUp s k)
  | .console | .serial | .master _ => inferInstanceAs (Decidable False)
  | .slave other => inferInstanceAs (Decidable (s.tty other).termios.Hup)

/-- `GETCH` and the count of lines. -/
def takeChar (m : Termios) (q : TtyQueue) : TtyQueue :=
  { q.incTail with data := if m.Delim q.ring.front then q.data - 1 else q.data }

/-- The next step of `tty_read`, where a signal may be there, or the time be over. -/
def run (K : TtyTable T) (s : Ttys T) (t : T) (nr minimum : ℕ) (buf : List (BitVec 8))
    (signal expired : Bool) : Read → Ttys T × List (Frame T)
  | .outer =>
    if nr = 0 then (s, []) else (s, pull t (K.kind t) ++ [.read t nr minimum buf .test])
  | .test =>
    if Waits (s.tty t) then
      if expired = true ∨ signal = true ∨ HungUp s (K.kind t) then (s, [])
      else (s, [.read t nr minimum buf .asleep])
    else (s, [.read t nr minimum buf .take])
  | .asleep => (s, [.read t nr minimum buf .outer])
  | .take =>
    let m := (s.tty t).termios
    let c := (s.tty t).secondary.ring.front
    (s.modifySecondary t (takeChar m),
      [.read t nr minimum buf (if m.Is c VEOF ∧ m.L ICANON then .done else .more c)])
  | .more c =>
    let stop := nr ≤ 1 ∨ (c = 10 ∧ (s.tty t).termios.L ICANON) ∨ (s.tty t).secondary.ring.Empty
    (s, [.read t (nr - 1) minimum (buf ++ [c]) (if stop then .done else .take)])
  | .done =>
    if (s.tty t).termios.L ICANON ∨ minimum ≤ buf.length then (s, [])
    else (s, [.read t nr minimum buf .outer])

end Read

/-- The next step of a call. -/
def Frame.run (K : TtyTable T) (s : Ttys T) (signal expired : Bool) :
    Frame T → Ttys T × List (Frame T)
  | .cooked t pc => pc.run K s t
  | .con t nr pc => pc.run s t nr
  | .pty src dst => ptyCopy s src dst signal
  | .write t buf pc => pc.run K s t buf signal
  | .read t nr minimum buf pc => pc.run K s t nr minimum buf signal expired

/-- The points where a process may lose the processor: asleep, in `schedule`, or in the copy
of a byte from or to the user. -/
def Frame.Parks : Frame T → Prop
  | .write _ _ pc => pc = .asleep ∨ pc = .fetch ∨ pc = .after
  | .read _ _ _ _ pc => pc = .asleep ∨ ∃ c, pc = .more c
  | _ => False

/-! ### The runs -/

/-- The terminals and the calls in progress. -/
structure Terminals (T : Type) where
  ttys : Ttys T
  /-- the call that runs, those that wait for it to return, and those it interrupted -/
  stack : List (Frame T)
  /-- calls of other processes -/
  parked : List (Frame T)

/-- The arguments of `TCXONC`. -/
inductive Flow where
  | TCOOFF | TCOON | TCIOFF | TCION
  deriving DecidableEq

inductive TtyEvent (T : Type) where
  /-- the call on the top of the stack goes on -/
  | run (signal expired : Bool)
  /-- a process calls `tty_write` or `tty_read` -/
  | write (t : T) (buf : List (BitVec 8))
  | read (t : T) (nr : ℕ)
  /-- `TCSETS` and its like; their stores of single bytes are such changes too -/
  | setTermios (t : T) (m : Termios)
  | flushRead (t : T)
  | flushWrite (t : T)
  | flow (t : T) (arg : Flow)
  /-- the keyboard interrupt of the console in the foreground -/
  | key (t : T) (cs : List (BitVec 8))
  /-- the interrupts of a serial line -/
  | receive (t : T) (c : BitVec 8)
  | sent (t : T)
  /-- `schedule` -/
  | park
  | resume (i : ℕ)

/-- `tty_ioctl` with `TCXONC`. -/
def flow (K : TtyTable T) (s : Ttys T) (t : T) : Flow → Ttys T × List (Frame T)
  | .TCOOFF => (s.modify t fun y => { y with stopped := true }, (K.kind t).write t)
  | .TCOON => (s.modify t fun y => { y with stopped := false }, (K.kind t).write t)
  | .TCIOFF =>
    let c := (s.tty t).termios.cc VSTOP
    (if c ≠ 0 then s.modifyWrite t (·.putch c) else s, [])
  | .TCION =>
    let c := (s.tty t).termios.cc VSTART
    (if c ≠ 0 then s.modifyWrite t (·.putch c) else s, [])

/-- `put_queue` of keyboard.S: all characters, or none. -/
def putQueue (cs : List (BitVec 8)) (q : TtyQueue) : TtyQueue :=
  if cs.length ≤ q.ring.left then q.putAll cs else q

/-- `write_char` of rs_io.s. -/
def writeChar (q : TtyQueue) : TtyQueue := if q.ring.Empty then q else q.incTail

namespace Terminals

/-- What each event needs. -/
def Can (K : TtyTable T) (s : Terminals T) : TtyEvent T → Prop
  | .run _ _ => s.stack ≠ []
  | .write _ _ | .read _ _ | .setTermios _ _ | .flushRead _ | .flushWrite _ | .flow _ _ =>
    s.stack = []
  | .key t _ => K.kind t = .console
  | .receive t _ | .sent t => K.kind t = .serial
  | .park => ∃ f, s.stack = [f] ∧ f.Parks
  | .resume i => s.stack = [] ∧ i < s.parked.length

def step (K : TtyTable T) (s : Terminals T) : TtyEvent T → Terminals T
  | .run signal expired =>
    match s.stack with
    | [] => s
    | f :: rest =>
      let (ttys, frames) := f.run K s.ttys signal expired
      { s with ttys := ttys, stack := frames ++ rest }
  | .write t buf => { s with stack := [.write t buf .outer] }
  | .read t nr =>
    { s with stack := [.read t nr (Read.minimum (s.ttys.tty t).termios nr) [] .outer] }
  | .setTermios t m => { s with ttys := s.ttys.modify t fun y => { y with termios := m } }
  | .flushRead t => { s with ttys := s.ttys.modifyRead t .flush }
  | .flushWrite t => { s with ttys := s.ttys.modifyWrite t .flush }
  | .flow t arg =>
    let (ttys, frames) := Tty.flow K s.ttys t arg
    { s with ttys := ttys, stack := frames }
  | .key t cs =>
    { s with ttys := s.ttys.modifyRead t (putQueue cs), stack := .cooked t .top :: s.stack }
  | .receive t c =>
    { s with ttys := s.ttys.modifyRead t (putQueue [c]), stack := .cooked t .top :: s.stack }
  | .sent t => { s with ttys := s.ttys.modifyWrite t writeChar }
  | .park => { s with stack := [], parked := s.stack ++ s.parked }
  | .resume i => { s with stack := s.parked[i]?.toList, parked := s.parked.eraseIdx i }

end Terminals

/-- The runs from terminals that no call is at work on. -/
def terminals (K : TtyTable T) : System (Terminals T) (TtyEvent T) where
  init s := s.stack = [] ∧ s.parked = [] ∧ ∀ t, (s.ttys.tty t).Settled
  step s e s' := s.Can K e ∧ s' = s.step K e

/-! ### A serial line -/

/-- One serial line and nothing else. -/
def serialLine : TtyTable Unit := ⟨fun _ => .serial, by simp, id, id⟩

/-- A queue with the characters of a ring buffer. -/
def TtyQueue.ofRing (data : BitVec 32) (ring : RingBuffer 1023 (BitVec 8)) : TtyQueue :=
  ⟨data, ring, ring.contents, [], 0, 0⟩

theorem TtyQueue.sound_ofRing (data : BitVec 32) (ring : RingBuffer 1023 (BitVec 8)) :
    (TtyQueue.ofRing data ring).Sound := ⟨rfl, rfl, rfl⟩

def noChars : RingBuffer 1023 (BitVec 8) := ⟨0, 0, fun _ => 0⟩

/-- The terminal with the line `ring`, more characters `more` behind it, and its line count. -/
def lineOf (data : BitVec 32) (ring more : RingBuffer 1023 (BitVec 8)) : Terminals Unit where
  ttys := ⟨fun _ => ⟨DEF_TERMIOS, false, .ofRing 0 more, .ofRing 0 noChars, .ofRing data ring,
    ⟨.normal, 0⟩, []⟩, false⟩
  stack := []
  parked := []

theorem lineOf_init {data : BitVec 32} {ring more : RingBuffer 1023 (BitVec 8)}
    (hdata : data = BitVec.ofNat 32 (ring.contents.countP (DEF_TERMIOS.Delim ·))) :
    (terminals serialLine).init (lineOf data ring more) := by
  refine ⟨rfl, rfl, fun _ => ⟨TtyQueue.sound_ofRing _ _, TtyQueue.sound_ofRing _ _,
    TtyQueue.sound_ofRing _ _, ?_, rfl⟩⟩
  show data = BitVec.ofNat 32 ((ring.contents ++ []).countP (DEF_TERMIOS.Delim ·))
  rw [List.append_nil]
  exact hdata

end Tty
