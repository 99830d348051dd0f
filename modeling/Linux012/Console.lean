/-
The virtual consoles (kernel/chr_drv/console.c).

* `Video` — the adapter, with the memory it gives to each console;
* `Vt` — what a console keeps apart from its place in the video memory, and `interpret`, what
  `con_write` makes of a character: new values for these fields, and one `Action` on the
  screen;
* `Vc` — an element of `vc_cons`; `Screen` — the one that is written, with the video memory,
  and the actions as the functions of console.c do them;
* `Consoles` — all of them; `conInit`, `Event` — what is written, and changes of the
  foreground console.

Design notes: the adapter's memory is one array of bytes, and a screen is moved in it with the
string instructions.  The erase character of the terminal is an input, since it may change
between two characters; so is the answer to `ESC Z`, which is written as any other output is.
The beep, the blanking of the screen and the cursor of the adapter are left out.
-/
import Linux012.BlockMoves
import Mathlib.Algebra.Ring.Nat
import Mathlib.Logic.Function.Iterate

namespace Console

open Function (update)
open BlockMoves

/-! ### The adapter -/

/-- `video_type`. -/
inductive VideoType where
  | MDA
  | CGA
  | EGAM
  | EGAC
  deriving DecidableEq

/-- What `con_init` reads of the adapter: its type, `video_num_columns`, `video_num_lines`. -/
structure Video where
  type : VideoType
  cols : ℕ
  lines : ℕ

namespace Video

variable (v : Video)

/-- `video_size_row`. -/
def sizeRow : ℕ := v.cols * 2

/-- Adapters that can start the screen anywhere in their memory. -/
def ega : Bool :=
  match v.type with
  | .EGAM | .EGAC => true
  | .MDA | .CGA => false

def canDoColour : Bool :=
  match v.type with
  | .CGA | .EGAC => true
  | .MDA | .EGAM => false

/-- `video_mem_base`. -/
def memBase : ℕ := if v.canDoColour then 0xb8000 else 0xb0000

/-- `video_mem_term`. -/
def memTerm : ℕ :=
  match v.type with
  | .MDA => 0xb2000
  | .EGAM => 0xb8000
  | .CGA => 0xba000
  | .EGAC => 0xc0000

/-- `display_desc`. -/
def displayDesc : List (BitVec 8) :=
  match v.type with
  | .MDA => [0x2a, 0x4d, 0x44, 0x41]
  | .EGAM => [0x45, 0x47, 0x41, 0x6d]
  | .CGA => [0x2a, 0x43, 0x47, 0x41]
  | .EGAC => [0x45, 0x47, 0x41, 0x63]

def NR_CONSOLES : ℕ :=
  let n := min ((v.memTerm - v.memBase) / (v.lines * v.sizeRow)) 8
  if n = 0 then 1 else n

/-- `video_memory`: what each console gets. -/
def memory : ℕ := (v.memTerm - v.memBase) / v.NR_CONSOLES

end Video

/-! ### Characters -/

/-- A character on the screen and its attributes: two bytes of the memory. -/
structure Cell where
  char : BitVec 8
  attr : BitVec 8
  deriving DecidableEq

/-- The bytes of a cell, for `stosw`. -/
def Cell.byte (c : Cell) (k : ℕ) : BitVec 8 := if k = 0 then c.char else c.attr

/-- `translations`. -/
inductive Charset where
  | NORM_TRANS
  | GRAF_TRANS
  deriving DecidableEq

/-- The last line of `GRAF_TRANS`; a backslash too many spoils its end. -/
def grafTrans : List (BitVec 8) :=
  [0x04, 0xb1, 0x07, 0x07, 0x07, 0x07, 0xf8, 0xf1, 0x07, 0x07, 0xbd, 0xb7, 0xd6, 0xd3, 0xd7, 0xc4,
    0xc4, 0xc4, 0xc4, 0xc4, 0xc7, 0xb6, 0xd0, 0xd2, 0xba, 0xf3, 0xf2, 0xe3, 0x5c, 0x30, 0x30, 0x37,
    0x9c, 0x07, 0x20]

/-- `translate[c - 32]`, of the characters from the blank to the tilde. -/
def Charset.translate (t : Charset) (c : BitVec 8) : BitVec 8 :=
  match t with
  | .NORM_TRANS => c
  | .GRAF_TRANS =>
    if c.toNat < 0x5f then c else if c.toNat = 0x5f then 0x20 else grafTrans.getD (c.toNat - 0x60) 0

/-- The code of a character. -/
def ch (c : Char) : BitVec 8 := BitVec.ofNat 8 c.toNat

/-! ### Escape sequences -/

/-- The states of `con_write`; `hash` is the -1 after `ESC #`. -/
inductive State where
  | ESnormal
  | ESesc
  | ESsquare
  | ESgetpars
  | ESgotpars
  | ESfunckey
  | ESsetterm
  | ESsetgraph
  | hash
  deriving DecidableEq

/-- The fields of `vc_cons` that are no addresses. -/
structure Vt where
  /-- `video_erase_char` -/
  eraseChar : Cell
  attr : BitVec 8
  defAttr : BitVec 8
  boldAttr : BitVec 32
  ques : Bool
  state : State
  x : ℕ
  y : ℕ
  top : ℕ
  bottom : ℕ
  npar : ℕ
  par : ℕ → BitVec 32
  savedX : ℕ
  savedY : ℕ
  iscolor : Bool
  translate : Charset

/-- What a character does on the screen. -/
inductive Action where
  | stay
  | gotoxy (newX newY : BitVec 32)
  | lf
  | ri
  | cr
  | del
  /-- a character is shown -/
  | put (glyph : BitVec 8)
  /-- backspace -/
  | back
  | tab
  | csiJ (vpar : BitVec 32)
  | csiK (vpar : BitVec 32)
  | csiAt (nr : BitVec 32)
  | csiL (nr : BitVec 32)
  | csiP (nr : BitVec 32)
  | csiM (nr : BitVec 32)

namespace Vt

variable (v : Video)

def xLong (s : Vt) : BitVec 32 := BitVec.ofNat 32 s.x

def yLong (s : Vt) : BitVec 32 := BitVec.ofNat 32 s.y

/-- `if (par[i]) par[i]--`. -/
def decPar (s : Vt) (i : ℕ) : Vt :=
  if s.par i = 0 then s else { s with par := update s.par i (s.par i - 1) }

/-- `if (!par[i]) par[i]++`. -/
def incPar (s : Vt) (i : ℕ) : Vt := if s.par i = 0 then { s with par := update s.par i 1 } else s

def saveCur (s : Vt) : Vt := { s with savedX := s.x, savedY := s.y }

def restoreCur (s : Vt) : Vt × Action :=
  (s, .gotoxy (BitVec.ofNat 32 s.savedX) (BitVec.ofNat 32 s.savedY))

/-- The attribute of `case 4` on a colour screen. -/
def underline (bold : BitVec 32) (attr : BitVec 8) : BitVec 8 :=
  if bold ≠ 0xffffffff then (bold.setWidth 8 &&& 0x0f) ||| (attr &&& 0xf0)
  else
    let newattr := (attr &&& 0xf0) ||| (~~~attr &&& 0x0f)
    if newattr &&& 0x0f = (attr >>> 4) &&& 0x0f then
      (attr &&& 0xf0) ||| BitVec.ofNat 8 (((attr &&& 0x0f).toNat + 1) % 0x0f)
    else newattr

/-- One parameter of `csi_m`. -/
def csiMPar (s : Vt) (p : BitVec 32) : Vt :=
  match p.toNat with
  | 0 => { s with attr := s.defAttr }
  | 1 => { s with attr := if s.iscolor then s.attr ||| 0x08 else s.attr ||| 0x0f }
  | 4 => { s with attr := if s.iscolor then underline s.boldAttr s.attr else s.attr ||| 0x01 }
  | 5 => { s with attr := s.attr ||| 0x80 }
  | 7 => { s with attr := s.attr <<< 4 ||| s.attr >>> 4 }
  | 22 => { s with attr := s.attr &&& 0xf7 }
  | 24 => { s with attr := s.attr &&& 0xfe }
  | 25 => { s with attr := s.attr &&& 0x7f }
  | 27 => { s with attr := s.defAttr }
  | 39 => { s with attr := (s.attr &&& 0xf0) ||| (s.defAttr &&& 0x0f) }
  | 49 => { s with attr := (s.attr &&& 0x0f) ||| (s.defAttr &&& 0xf0) }
  | n =>
    if v.canDoColour then
      let s := { s with iscolor := true }
      if 30 ≤ n ∧ n ≤ 38 then
        { s with attr := (s.attr &&& 0xf0) ||| BitVec.ofNat 8 (n - 30) }
      else if 40 ≤ n ∧ n ≤ 48 then
        { s with attr := (s.attr &&& 0x0f) ||| BitVec.ofNat 8 (n - 40) <<< 4 }
      else s
    else s

/-- `csi_m`. -/
def csiSgr (s : Vt) : Vt :=
  (List.range (s.npar + 1)).foldl (fun t i => t.csiMPar v (s.par i)) s

/-- `CSI r`: the scrolling region. -/
def csiR (s : Vt) : Vt :=
  let s := s.decPar 0
  let s := if s.par 1 = 0 then { s with par := update s.par 1 (BitVec.ofNat 32 v.lines) } else s
  if (s.par 0).toNat < (s.par 1).toNat ∧ (s.par 1).toNat ≤ v.lines then
    { s with top := (s.par 0).toNat, bottom := (s.par 1).toNat }
  else s

/-- `CSI l` and `CSI b`, of which only the latter is of any effect here. -/
def csiB (s : Vt) (c : BitVec 8) : Vt :=
  if 2 ≤ s.npar ∧ s.par 1 - 13 = s.par 0 ∧ s.par 2 - 17 = s.par 0 ∧ c = ch 'b' then
    { s with boldAttr := s.par 0 }
  else s

/-- `case ESgotpars`. -/
def gotPars (s : Vt) (c : BitVec 8) : Vt × Action :=
  let s := { s with state := .ESnormal }
  if s.ques then ({ s with ques := false }, .stay)
  else if c = ch 'G' ∨ c = 0x60 then
    let s := s.decPar 0
    (s, .gotoxy (s.par 0) s.yLong)
  else if c = ch 'A' then
    let s := s.incPar 0
    (s, .gotoxy s.xLong (s.yLong - s.par 0))
  else if c = ch 'B' ∨ c = ch 'e' then
    let s := s.incPar 0
    (s, .gotoxy s.xLong (s.yLong + s.par 0))
  else if c = ch 'C' ∨ c = ch 'a' then
    let s := s.incPar 0
    (s, .gotoxy (s.xLong + s.par 0) s.yLong)
  else if c = ch 'D' then
    let s := s.incPar 0
    (s, .gotoxy (s.xLong - s.par 0) s.yLong)
  else if c = ch 'E' then
    let s := s.incPar 0
    (s, .gotoxy 0 (s.yLong + s.par 0))
  else if c = ch 'F' then
    let s := s.incPar 0
    (s, .gotoxy 0 (s.yLong - s.par 0))
  else if c = ch 'd' then
    let s := s.decPar 0
    (s, .gotoxy s.xLong (s.par 0))
  else if c = ch 'H' ∨ c = ch 'f' then
    let s := (s.decPar 0).decPar 1
    (s, .gotoxy (s.par 1) (s.par 0))
  else if c = ch 'J' then (s, .csiJ (s.par 0))
  else if c = ch 'K' then (s, .csiK (s.par 0))
  else if c = ch 'L' then (s, .csiL (s.par 0))
  else if c = ch 'M' then (s, .csiM (s.par 0))
  else if c = ch 'P' then (s, .csiP (s.par 0))
  else if c = ch '@' then (s, .csiAt (s.par 0))
  else if c = ch 'm' then (s.csiSgr v, .stay)
  else if c = ch 'r' then (s.csiR v, .stay)
  else if c = ch 's' then (s.saveCur, .stay)
  else if c = ch 'u' then s.restoreCur
  else (s.csiB c, .stay)

/-- `case ESgetpars`. -/
def getPars (s : Vt) (c : BitVec 8) : Vt × Action :=
  if c = ch ';' ∧ s.npar < 15 then ({ s with npar := s.npar + 1 }, .stay)
  else if 0x30 ≤ c.toNat ∧ c.toNat ≤ 0x39 then
    let p := 10 * s.par s.npar + c.setWidth 32 - 0x30
    ({ s with par := update s.par s.npar p }, .stay)
  else ({ s with state := .ESgotpars }.gotPars v c)

/-- `case ESesc`. -/
def escape (s : Vt) (c : BitVec 8) : Vt × Action :=
  let s := { s with state := .ESnormal }
  if c = ch '[' then ({ s with state := .ESsquare }, .stay)
  else if c = ch 'E' then (s, .gotoxy 0 (s.yLong + 1))
  else if c = ch 'M' then (s, .ri)
  else if c = ch 'D' then (s, .lf)
  else if c = ch '7' then (s.saveCur, .stay)
  else if c = ch '8' then s.restoreCur
  else if c = ch '(' ∨ c = ch ')' then ({ s with state := .ESsetgraph }, .stay)
  else if c = ch 'P' then ({ s with state := .ESsetterm }, .stay)
  else if c = ch '#' then ({ s with state := .hash }, .stay)
  else if c = ch 'c' then ({ s with top := 0, bottom := v.lines }, .stay)
  else (s, .stay)

/-- `case ESnormal`; characters from 128 on are negative and do nothing. -/
def normal (erase : BitVec 8) (s : Vt) (c : BitVec 8) : Vt × Action :=
  if 31 < c.toNat ∧ c.toNat < 127 then (s, .put (s.translate.translate c))
  else if c = 27 then ({ s with state := .ESesc }, .stay)
  else if c = 10 ∨ c = 11 ∨ c = 12 then (s, .lf)
  else if c = 13 then (s, .cr)
  else if c.toInt = erase.toNat then (s, .del)
  else if c = 8 then (s, .back)
  else if c = 9 then (s, .tab)
  else if c = 14 then ({ s with translate := .GRAF_TRANS }, .stay)
  else if c = 15 then ({ s with translate := .NORM_TRANS }, .stay)
  else (s, .stay)

/-- What `con_write` makes of a character. -/
def interpret (erase : BitVec 8) (s : Vt) (c : BitVec 8) : Vt × Action :=
  let s := if c = 24 ∨ c = 26 then { s with state := .ESnormal } else s
  match s.state with
  | .ESnormal => s.normal erase c
  | .ESesc => s.escape v c
  | .ESsquare =>
    let s := { s with par := fun _ => 0, npar := 0, state := .ESgetpars }
    if c = ch '[' then ({ s with state := .ESfunckey }, .stay)
    else if c = ch '?' then ({ s with ques := true }, .stay)
    else { s with ques := false }.getPars v c
  | .ESgetpars => s.getPars v c
  | .ESgotpars => s.gotPars v c
  | .ESfunckey => ({ s with state := .ESnormal }, .stay)
  | .ESsetterm =>
    let s := { s with state := .ESnormal }
    if c = ch 'S' then
      ({ s with defAttr := s.attr, eraseChar := { s.eraseChar with attr := s.attr } }, .stay)
    else (s, .stay)
  | .ESsetgraph =>
    let s := { s with state := .ESnormal }
    if c = ch '0' then ({ s with translate := .GRAF_TRANS }, .stay)
    else if c = ch 'B' then ({ s with translate := .NORM_TRANS }, .stay)
    else (s, .stay)
  | .hash => ({ s with state := .ESnormal }, .stay)

end Vt

/-! ### The screen in the memory -/

/-- An element of `vc_cons`. -/
structure Vc extends Vt where
  origin : ℕ
  scrEnd : ℕ
  pos : ℕ
  /-- `video_mem_start` -/
  memStart : ℕ
  /-- `video_mem_end` -/
  memEnd : ℕ

/-- The console that is written, with the video memory and the adapter's start address. -/
structure Screen extends Vc where
  mem : ℕ → BitVec 8
  start : ℕ

namespace Screen

variable (v : Video)

/-- The cell at an address. -/
def cellAt (m : ℕ → BitVec 8) (a : ℕ) : Cell := ⟨m a, m (a + 1)⟩

def gotoxy (s : Screen) (newX newY : BitVec 32) : Screen :=
  if v.cols < newX.toNat ∨ v.lines ≤ newY.toNat then s
  else
    { s with
      x := newX.toNat
      y := newY.toNat
      pos := s.origin + newY.toNat * v.sizeRow + newX.toNat * 2 }

/-- The start address goes to the registers 12 and 13, of eight bits each. -/
def setOrigin (fg : Bool) (s : Screen) : Screen :=
  if v.ega && fg then
    let d := s.origin - v.memBase
    { s with start := (d / 2 ^ 9 % 256) * 256 + d / 2 % 256 }
  else s

/-- The lines from `top` to `bottom` move up; a blank one comes at the bottom. -/
def moveUp (s : Screen) : Screen :=
  let n := (s.bottom - s.top - 1) * v.cols / 2
  let dst := s.origin + v.sizeRow * s.top
  let mem := movs 4 n s.mem dst (s.origin + v.sizeRow * (s.top + 1))
  { s with mem := stos 2 s.eraseChar.byte v.cols mem (dst + 4 * n) }

/-- The screen has come to the end of the memory: all but its first line go to the start. -/
def wrap (s : Screen) : Screen :=
  let n := (v.lines - 1) * v.cols / 2
  let mem := movs 4 n s.mem s.memStart s.origin
  { s with
    mem := stos 2 s.eraseChar.byte v.cols mem (s.memStart + 4 * n)
    scrEnd := s.scrEnd - (s.origin - s.memStart)
    pos := s.pos - (s.origin - s.memStart)
    origin := s.memStart }

def scrup (fg : Bool) (s : Screen) : Screen :=
  if s.bottom ≤ s.top then s
  else if v.ega && decide (s.top = 0 ∧ s.bottom = v.lines) then
    let s :=
      { s with
        origin := s.origin + v.sizeRow
        pos := s.pos + v.sizeRow
        scrEnd := s.scrEnd + v.sizeRow }
    let s := if s.memEnd < s.scrEnd then s.wrap v
      else { s with mem := stos 2 s.eraseChar.byte v.cols s.mem (s.scrEnd - v.sizeRow) }
    s.setOrigin v fg
  else s.moveUp v

def scrdown (s : Screen) : Screen :=
  if s.bottom ≤ s.top then s
  else
    let n := (s.bottom - s.top - 1) * v.cols / 2
    let dst := s.origin + v.sizeRow * s.bottom - 4
    let mem := movsDown 4 n s.mem dst (s.origin + v.sizeRow * (s.bottom - 1) - 4)
    { s with mem := stosDown 2 s.eraseChar.byte v.cols mem (dst - 4 * n + 2) }

def lf (fg : Bool) (s : Screen) : Screen :=
  if s.y + 1 < s.bottom then { s with y := s.y + 1, pos := s.pos + v.sizeRow }
  else s.scrup v fg

def ri (s : Screen) : Screen :=
  if s.top < s.y then { s with y := s.y - 1, pos := s.pos - v.sizeRow } else s.scrdown v

def cr (s : Screen) : Screen := { s with pos := s.pos - s.x * 2, x := 0 }

def del (s : Screen) : Screen :=
  if s.x = 0 then s
  else
    { s with
      pos := s.pos - 2
      x := s.x - 1
      mem := BlockMoves.put 2 s.eraseChar.byte s.mem (s.pos - 2) }

/-- `count` characters from `from_` on are erased. -/
def erase (s : Screen) (count from_ : ℕ) : Screen :=
  { s with mem := stos 2 s.eraseChar.byte count s.mem from_ }

def csiJ (s : Screen) (vpar : BitVec 32) : Screen :=
  match vpar.toNat with
  | 0 => s.erase ((s.scrEnd - s.pos) / 2) s.pos
  | 1 => s.erase ((s.pos - s.origin) / 2) s.origin
  | 2 => s.erase (v.cols * v.lines) s.origin
  | _ => s

def csiK (s : Screen) (vpar : BitVec 32) : Screen :=
  match vpar.toNat with
  | 0 => if v.cols ≤ s.x then s else s.erase (v.cols - s.x) s.pos
  | 1 => s.erase (if s.x < v.cols then s.x else v.cols) (s.pos - s.x * 2)
  | 2 => s.erase v.cols (s.pos - s.x * 2)
  | _ => s

/-- The loop of `insert_char`. -/
def insertLoop : ℕ → (ℕ → BitVec 8) → ℕ → Cell → ℕ → BitVec 8
  | 0, m, _, _ => m
  | n + 1, m, p, old => insertLoop n (BlockMoves.put 2 old.byte m p) (p + 2) (cellAt m p)

def insertChar (s : Screen) : Screen :=
  { s with mem := insertLoop (v.cols - s.x) s.mem s.pos s.eraseChar }

/-- The loop of `delete_char`, and the blank at the end of the line. -/
def deleteLoop (blank : Cell) : ℕ → (ℕ → BitVec 8) → ℕ → ℕ → BitVec 8
  | 0, m, p => BlockMoves.put 2 blank.byte m p
  | n + 1, m, p => deleteLoop blank n (BlockMoves.put 2 (cellAt m (p + 2)).byte m p) (p + 2)

def deleteChar (s : Screen) : Screen :=
  if v.cols ≤ s.x then s
  else { s with mem := deleteLoop s.eraseChar (v.cols - s.x - 1) s.mem s.pos }

/-- `f` with the region from the line of the cursor to the end of the screen. -/
def withRegion (f : Screen → Screen) (s : Screen) : Screen :=
  { f { s with top := s.y, bottom := v.lines } with top := s.top, bottom := s.bottom }

def insertLine (s : Screen) : Screen := s.withRegion v (scrdown v)

def deleteLine (fg : Bool) (s : Screen) : Screen := s.withRegion v (scrup v fg)

end Screen

/-- How often an action is done: `nr`, but at least once, and no more than `most` times. -/
def times (nr : BitVec 32) (most : ℕ) : ℕ :=
  if most < nr.toNat then most else if nr.toNat = 0 then 1 else nr.toNat

namespace Screen

variable (v : Video) (fg : Bool)

/-- From the end of a line, or behind it, to the next line. -/
def newLine (s : Screen) : Screen :=
  { s with x := s.x - v.cols, pos := s.pos - v.sizeRow }.lf v fg

/-- A character is shown, on the next line if the cursor is behind the end of a line. -/
def put (s : Screen) (glyph : BitVec 8) : Screen :=
  let s := if v.cols ≤ s.x then s.newLine v fg else s
  { s with
    mem := BlockMoves.put 2 (Cell.mk glyph s.attr).byte s.mem s.pos
    pos := s.pos + 2
    x := s.x + 1 }

def back (s : Screen) : Screen := if s.x = 0 then s else { s with x := s.x - 1, pos := s.pos - 2 }

def tab (s : Screen) : Screen :=
  let c := 8 - s.x % 8
  let s := { s with x := s.x + c, pos := s.pos + c * 2 }
  if v.cols < s.x then s.newLine v fg else s

/-- An action, as the functions of console.c do it. -/
def perform (s : Screen) : Action → Screen
  | .stay => s
  | .gotoxy newX newY => s.gotoxy v newX newY
  | .lf => s.lf v fg
  | .ri => s.ri v
  | .cr => s.cr
  | .del => s.del
  | .put glyph => s.put v fg glyph
  | .back => s.back
  | .tab => s.tab v fg
  | .csiJ vpar => s.csiJ v vpar
  | .csiK vpar => s.csiK v vpar
  | .csiAt nr => (insertChar v)^[times nr v.cols] s
  | .csiL nr => (insertLine v)^[times nr v.lines] s
  | .csiP nr => (deleteChar v)^[times nr v.cols] s
  | .csiM nr => (deleteLine v fg)^[times nr v.lines] s

/-- `con_write`, of one character. -/
def write (erase : BitVec 8) (s : Screen) (c : BitVec 8) : Screen :=
  let r := s.toVt.interpret v erase c
  { s with toVt := r.1 }.perform v fg r.2

/-- `console_print`, of one character. -/
def print (s : Screen) (c : BitVec 8) : Screen :=
  if c = 10 then (s.cr).lf v fg else if c = 13 then s.cr else s.put v fg c

end Screen

/-! ### All consoles -/

/-- `vc_cons`, `fg_console`, the video memory and the adapter's start address. -/
structure Consoles where
  vc : ℕ → Vc
  fg : ℕ
  mem : ℕ → BitVec 8
  start : ℕ

/-- What is written to a console, and with which erase character; what is printed; and the
change of the foreground console. -/
inductive Event where
  | write (i : ℕ) (erase c : BitVec 8)
  | print (c : BitVec 8)
  | change (i : ℕ)

namespace Consoles

variable (v : Video)

def screen (s : Consoles) (i : ℕ) : Screen := { s.vc i with mem := s.mem, start := s.start }

/-- The console `i` after a step. -/
def put (s : Consoles) (i : ℕ) (t : Screen) : Consoles :=
  { s with vc := update s.vc i t.toVc, mem := t.mem, start := t.start }

def step (s : Consoles) : Event → Consoles
  | .write i erase c =>
    if i < v.NR_CONSOLES then s.put i ((s.screen i).write v (decide (i = s.fg)) erase c) else s
  | .print c => s.put s.fg ((s.screen s.fg).print v true c)
  | .change i =>
    if i = s.fg ∨ v.NR_CONSOLES ≤ i then s
    else { s with fg := i, start := ((s.screen i).setOrigin v true).start }

/-- The type of the adapter is shown in the corner of the screen. -/
def describe (m : ℕ → BitVec 8) : ℕ → List (BitVec 8) → ℕ → BitVec 8
  | _, [] => m
  | p, c :: cs => describe (update m p c) (p + 2) cs

/-- The first console, with the cursor where the BIOS has left it. -/
def firstVc (origX origY : BitVec 8) (m : ℕ → BitVec 8) : Screen :=
  let vt : Vt :=
    { eraseChar := ⟨0x20, 0x07⟩
      attr := 0x07
      defAttr := 0x07
      boldAttr := 0xffffffff
      ques := false
      state := .ESnormal
      x := 0
      y := 0
      top := 0
      bottom := v.lines
      npar := 0
      par := fun _ => 0
      savedX := 0
      savedY := 0
      iscolor := false
      translate := .NORM_TRANS }
  let s : Screen :=
    { toVt := vt
      origin := v.memBase
      scrEnd := v.memBase + v.lines * v.sizeRow
      pos := 0
      memStart := v.memBase
      memEnd := v.memBase + v.memory
      mem := describe m (v.memBase + v.sizeRow - 8) v.displayDesc
      start := 0 }
  s.gotoxy v (origX.setWidth 32) (origY.setWidth 32)

/-- Another console is a copy of the first, with its own memory. -/
def otherVc (first : Screen) (i : ℕ) : Screen :=
  { first with
    origin := v.memBase + i * v.memory
    memStart := v.memBase + i * v.memory
    scrEnd := v.memBase + i * v.memory + v.lines * v.sizeRow
    memEnd := v.memBase + v.memory + i * v.memory }.gotoxy v 0 0

/-- `con_init`. -/
def conInit (origX origY : BitVec 8) (m : ℕ → BitVec 8) : Consoles :=
  let first := firstVc v origX origY m
  { vc := fun i => if i = 0 then first.toVc else (otherVc v first i).toVc
    fg := 0
    mem := first.mem
    start := (first.setOrigin v true).start }

end Consoles

end Console
