/-
The emulator of the 80387 (kernel/math/math_emulate.c and ea.c).

* `Emulator` — `I387`, the registers of the user and its memory;
* `sib`, `ea` — the address of an operand, where an instruction may be aborted;
* `fixedCase`, `registerCase`, `memoryCase`, `operandCase` — the three switches of `do_emu` and
  what comes after them, by `code`;
* `doEmu` — an instruction;
* `NoTrace` — what an instruction that is aborted must leave alone;
* `aborted_leaves_no_trace` — it does, but for loads that push before they compute the address.

Design notes: an instruction that none of the cases of a switch takes goes on to the next switch.
The long words of `st_space` are moved as the ten bytes of each register.  `verify_area` changes
nothing that is modelled.
-/
import Linux012.Aborting
import Linux012.Arithmetic
import Linux012.GetPut

open Aborting

namespace MathEmu

/-- Why an instruction neither ends nor is aborted: `panic`, a `temp_real` that no statement has
assigned, or a loop that goes on. -/
inductive Fault where
  | panic
  | unassigned
  | endless

structure Emulator where
  cwd : BitVec 32
  swd : BitVec 32
  twd : BitVec 32
  fip : BitVec 32
  fcs : BitVec 32
  foo : BitVec 32
  fos : BitVec 32
  /-- `st_space` -/
  stSpace : Fin 8 → TempReal
  /-- EAX, ECX, EDX, EBX, ESP, EBP, ESI and EDI -/
  regs : Fin 8 → BitVec 32
  eip : Addr
  origEip : Addr
  cs : BitVec 16
  mem : Memory
  signal : BitVec 32

/-- What cannot be aborted. -/
abbrev Reg (α : Type) : Type := Step Emulator Fault α

abbrev Emu (α : Type) : Type := Program Emulator Fault α

def SIGILL : ℕ := 4
def SIGFPE : ℕ := 8

/-- `__math_abort`, with `1 << (n - 1)`. -/
def mathAbort {α : Type} (n : ℕ) : Emu α :=
  abort fun s => { s with eip := s.origEip, signal := s.signal ||| 1 <<< (n - 1) }

/-! ### The register stack -/

/-- `__st`. -/
def Emulator.place (s : Emulator) (i : ℕ) : Fin 8 :=
  ⟨(i + s.swd.toNat / 2 ^ 11) % 8, Nat.mod_lt _ (by decide)⟩

/-- `ST(i)`. -/
def Emulator.st (s : Emulator) (i : ℕ) : TempReal := s.stSpace (s.place i)

def Emulator.setSt (s : Emulator) (i : ℕ) (t : TempReal) : Emulator :=
  { s with stSpace := Function.update s.stSpace (s.place i) t }

def st (i : ℕ) : Reg TempReal := do return (← get).st i

def setSt (i : ℕ) (t : TempReal) : Reg Unit := modify fun s => s.setSt i t

/-- `swd += n`, in `top` only. -/
def Emulator.rotate (s : Emulator) (n : BitVec 32) : Emulator :=
  { s with swd := ((s.swd + n) &&& 0x00003800) ||| (s.swd &&& 0xffffc7ff) }

def fpop : Reg Unit := modify fun s => s.rotate 0x00000800

def fpush : Reg Unit := modify fun s => s.rotate 0x00003800

def fxchg (i j : ℕ) : Reg Unit := do
  let a ← st i
  let b ← st j
  setSt i b
  setSt j a

/-- `set_OE` and the others. -/
def setFlags (flags : BitVec 32) : Reg Unit := modify fun s => { s with swd := s.swd ||| flags }

/-! ### Arithmetic on registers -/

def add (src1 src2 : TempReal) : Reg TempReal :=
  match fadd src1 src2 with
  | some t => pure t
  | none => throw .endless

/-- The result may be missing. -/
def mul (src1 src2 : TempReal) : Reg (Option TempReal) := do
  setFlags (fmul src1 src2).2
  return (fmul src1 src2).1

def div (src1 src2 : TempReal) : Reg (Option TempReal) :=
  match fdiv src1 src2 with
  | some (t, flags) => do
    setFlags flags
    return t
  | none => throw .endless

def com (src1 src2 : TempReal) : Reg Unit := do
  match fcom src1 src2 (← get).swd with
  | some swd => modify fun s => { s with swd := swd }
  | none => throw .endless

/-- A `temp_real` is read. -/
def assigned (tmp : Option TempReal) : Reg TempReal :=
  match tmp with
  | some t => pure t
  | none => throw .unassigned

def loaded (tmp : Option TempReal) : Reg TempReal :=
  match tmp with
  | some t => pure t
  | none => throw .endless

/-! ### Addresses -/

/-- `get_fs_byte(EIP)`, and on. -/
def fetchByte : Reg (BitVec 8) :=
  modifyGet fun s => (getFsByte s.mem s.eip, { s with eip := s.eip + 1 })

def fetchLong : Reg (BitVec 32) :=
  modifyGet fun s => (getFsLong s.mem s.eip, { s with eip := s.eip + 4 })

/-- `REG`. -/
def reg (x : ℕ) : Reg (BitVec 32) := do return (← get).regs ⟨x % 8, Nat.mod_lt x (by decide)⟩

/-- `I387.foo` and `I387.fos`. -/
def noteOperand (offset : BitVec 32) : Reg Unit :=
  modify fun s => { s with foo := offset, fos := 0x17 }

/-- `get_fs_byte`, as a `signed char`. -/
def fetchSigned : Reg (BitVec 32) := (BitVec.signExtend 32) <$> fetchByte

/-- What `index`, `base` and the bytes that follow add to the offset of `sib`. -/
def sibIndex (index : ℕ) : Reg (BitVec 32) := if index = 4 then pure 0 else reg index

def sibBase (mod base : ℕ) : Reg (BitVec 32) :=
  if mod ≠ 0 ∨ base ≠ 5 then reg base else pure 0

def sibDisplacement (mod base : ℕ) : Reg (BitVec 32) :=
  if mod = 1 then fetchSigned
  else if mod = 2 ∨ base = 5 then fetchLong
  else pure 0

def sib (mod : ℕ) : Reg Addr := do
  let byte ← fetchByte
  let ss := byte.toNat / 2 ^ 6
  let base := byte.toNat % 8
  let offset ← sibIndex (byte.toNat / 2 ^ 3 % 8)
  let baseOffset ← sibBase mod base
  let displacement ← sibDisplacement mod base
  let offset := (offset <<< ss) + baseOffset + displacement
  noteOperand offset
  return offset

/-- The offset of `ea`, from `mod` 0, 1 and 2. -/
def displacement (mod : ℕ) : Reg (BitVec 32) :=
  match mod with
  | 0 => pure 0
  | 1 => fetchSigned
  | _ => fetchLong

def ea (code : ℕ) : Emu Addr := do
  let mod := code / 2 ^ 6 % 4
  let rm := code % 8
  if rm = 4 ∧ mod ≠ 3 then run (sib mod)
  else if rm = 5 ∧ mod = 0 then
    run do
      let offset ← fetchLong
      noteOperand offset
      return offset
  else if mod = 3 then mathAbort SIGILL
  else
    run do
      let offset ← displacement mod
      noteOperand offset
      return offset + (← reg rm)

/-! ### Operands in memory -/

/-- `get_short_real` and the others: the address comes first. -/
def getOperand (code : ℕ) (load : Memory → Addr → Option TempReal) : Emu TempReal := do
  let addr ← ea code
  run do loaded (load (← get).mem addr)

/-- `fpush`, and then the operand. -/
def pushOperand (code : ℕ) (load : Memory → Addr → Option TempReal) : Emu Unit := do
  run fpush
  let tmp ← getOperand code load
  run (setSt 0 tmp)

/-- `put_short_real`, `put_long_real` and `put_temp_real`, of `ST(0)`. -/
def putReal (code : ℕ) (store : BitVec 32 → TempReal → Addr → Memory → Memory) : Emu Unit := do
  let addr ← ea code
  run do modify fun s => { s with mem := store s.cwd (s.st 0) addr s.mem }

/-- `put_short_int` and the others, with the flags of `real_to_int`. -/
def putInt (code : ℕ) (store : BitVec 32 → TempReal → Addr → Memory → Memory) : Emu Unit := do
  let addr ← ea code
  run do modify fun s =>
    { s with
      mem := store s.cwd (s.st 0) addr s.mem
      swd := s.swd ||| (realToInt s.cwd (s.st 0)).2 }

/-- The longs of `I387` that are not `st_space` are loaded. -/
def Emulator.loadEnv (s : Emulator) (addr : Addr) : Emulator :=
  { s with
    cwd := getFsLong s.mem addr
    swd := getFsLong s.mem (addr + 4)
    twd := getFsLong s.mem (addr + 8)
    fip := getFsLong s.mem (addr + 12)
    fcs := getFsLong s.mem (addr + 16)
    foo := getFsLong s.mem (addr + 20)
    fos := getFsLong s.mem (addr + 24) }

def Emulator.storeEnv (s : Emulator) (addr : Addr) : Memory :=
  putFsLong s.fos (addr + 24) (putFsLong s.foo (addr + 20) (putFsLong s.fcs (addr + 16)
    (putFsLong s.fip (addr + 12) (putFsLong s.twd (addr + 8) (putFsLong s.swd (addr + 4)
      (putFsLong s.cwd addr s.mem))))))

/-- `st_space` is loaded. -/
def Emulator.loadStack (s : Emulator) (addr : Addr) : Emulator :=
  { s with stSpace := fun i => getTempReal s.mem (addr + BitVec.ofNat 32 (10 * i)) }

def Emulator.storeStack (s : Emulator) (addr : Addr) (m : Memory) : Memory :=
  (List.finRange 8).foldl
    (fun m i => putTempReal m (s.stSpace i) (addr + BitVec.ofNat 32 (10 * i))) m

/-- `*(short *) &EAX = I387.swd`. -/
def Emulator.statusToAx (s : Emulator) : Emulator :=
  { s with
    regs := fun i =>
      if i.val = 0 then (s.regs i &&& 0xffff0000) ||| (s.swd &&& 0xffff) else s.regs i }

/-- `finit`. -/
def Emulator.init (s : Emulator) : Emulator := { s with cwd := 0x037f, swd := 0, twd := 0 }

/-! ### The switches -/

/-- `CONST1` and the others. -/
def CONSTZ : TempReal := ⟨0, 0⟩
def CONST1 : TempReal := ⟨0x8000000000000000, 0x3fff⟩
def CONSTPI : TempReal := ⟨0xC90FDAA22168C235, 0x4000⟩
def CONSTLN2 : TempReal := ⟨0xB17217F7D1CF79AC, 0x3ffe⟩
def CONSTLG2 : TempReal := ⟨0x9A209A84FBCFF799, 0x3ffd⟩
def CONSTL2E : TempReal := ⟨0xB8AA3B295C17F0BC, 0x3fff⟩
def CONSTL2T : TempReal := ⟨0xD49A784BCD1B8AFE, 0x4000⟩

def pushConst (t : TempReal) : Reg Unit := do
  fpush
  setSt 0 t

/-- The first switch, on `code`. -/
def fixedCase (code : ℕ) : Option (Emu Unit) :=
  match code with
  | 0x1d0 => some (pure ())
  | 0x1d1 | 0x1d2 | 0x1d3 | 0x1d4 | 0x1d5 | 0x1d6 | 0x1d7 => some (mathAbort SIGILL)
  | 0x1e0 => some (run do setSt 0 (← st 0).negate)
  | 0x1e1 => some (run do
      let t ← st 0
      setSt 0 { t with exponent := t.exponent &&& 0x7fff })
  | 0x1e2 | 0x1e3 => some (mathAbort SIGILL)
  | 0x1e4 => some (run do
      let t ← st 0
      modify fun s => { s with swd := ftst t s.swd })
  | 0x1e5 | 0x1e6 | 0x1e7 => some (mathAbort SIGILL)
  | 0x1e8 => some (run (pushConst CONST1))
  | 0x1e9 => some (run (pushConst CONSTL2T))
  | 0x1ea => some (run (pushConst CONSTL2E))
  | 0x1eb => some (run (pushConst CONSTPI))
  | 0x1ec => some (run (pushConst CONSTLG2))
  | 0x1ed => some (run (pushConst CONSTLN2))
  | 0x1ee => some (run (pushConst CONSTZ))
  | 0x1ef | 0x1f0 | 0x1f1 | 0x1f2 | 0x1f3 | 0x1f4 | 0x1f5 | 0x1f6 | 0x1f7 | 0x1f8 | 0x1f9
  | 0x1fa | 0x1fb | 0x1fc | 0x1fd | 0x1fe | 0x1ff => some (mathAbort SIGILL)
  | 0x2e9 => some (run do com (← st 1) (← st 0); fpop; fpop)
  | 0x3d0 | 0x3d1 => some (pure ())
  | 0x3e2 => some (run (modify fun s => { s with swd := s.swd &&& 0x7f00 }))
  | 0x3e3 => some (run (modify Emulator.init))
  | 0x3e4 => some (pure ())
  | 0x6d9 => some (run do com (← st 1) (← st 0); fpop; fpop)
  | 0x7e0 => some (run (modify Emulator.statusToAx))
  | _ => none

/-- The second switch, on `code >> 3`, with `i` for `code & 7`. -/
def registerCase (op i : ℕ) : Option (Emu Unit) :=
  match op with
  | 0x18 => some (run do setSt 0 (← add (← st 0) (← st i)))
  | 0x19 => some (run do setSt 0 (← assigned (← mul (← st 0) (← st i))))
  | 0x1a => some (run do com (← st i) (← assigned none))
  | 0x1b => some (run do com (← st i) (← assigned none); fpop)
  | 0x1c => some (run do setSt 0 (← add (← st 0) (← st i).negate))
  | 0x1d => some (run do
      setSt 0 (← st 0).negate
      setSt 0 (← add (← st 0) (← st i)))
  | 0x1e => some (run do setSt 0 (← assigned (← div (← st 0) (← st i))))
  | 0x1f => some (run do setSt 0 (← assigned (← div (← st i) (← st 0))))
  | 0x38 => some (run do
      fpush
      setSt 0 (← st (i + 1)))
  | 0x39 => some (run (fxchg 0 i))
  | 0x3b => some (run do setSt i (← st 0); fpop)
  | 0x98 => some (run do setSt i (← add (← st 0) (← st i)))
  | 0x99 => some (run do setSt i (← assigned (← mul (← st 0) (← st i))))
  | 0x9a => some (run do com (← st i) (← st 0))
  | 0x9b => some (run do com (← st i) (← st 0); fpop)
  | 0x9c => some (run do
      setSt i (← st i).negate
      setSt i (← add (← st 0) (← st i)))
  | 0x9d => some (run do setSt i (← add (← st i) (← st 0).negate))
  | 0x9e => some (run do setSt i (← assigned (← div (← st 0) (← st i))))
  | 0x9f => some (run do setSt i (← assigned (← div (← st i) (← st 0))))
  | 0xb8 => some (mathAbort SIGILL)
  | 0xb9 => some (run (fxchg 0 i))
  | 0xba => some (run do setSt i (← st 0))
  | 0xbb => some (run do setSt i (← st 0); fpop)
  | 0xbc => some (run do com (← st i) (← st 0))
  | 0xbd => some (run do com (← st i) (← st 0); fpop)
  | 0xd8 => some (run do setSt i (← add (← st i) (← st 0)); fpop)
  | 0xd9 => some (run do setSt i (← assigned (← mul (← st i) (← st 0))); fpop)
  | 0xda => some (run do com (← st i) (← st 0); fpop)
  | 0xdc => some (run do
      setSt i (← st i).negate
      setSt i (← add (← st 0) (← st i))
      fpop)
  | 0xdd => some (run do setSt i (← add (← st i) (← st 0).negate); fpop)
  | 0xde => some (run do setSt i (← assigned (← div (← st 0) (← st i))); fpop)
  | 0xdf => some (run do setSt i (← assigned (← div (← st i) (← st 0))); fpop)
  | 0xf8 => some (mathAbort SIGILL)
  | 0xf9 => some (run (fxchg 0 i))
  | 0xfa | 0xfb => some (run do setSt i (← st 0); fpop)
  | _ => none

/-- The third switch, on `(code >> 3) & 0xe7`. -/
def memoryCase (op code : ℕ) : Option (Emu Unit) :=
  match op with
  | 0x22 => some (run (throw .panic))
  | 0x23 => some do
      putReal code fun cwd t addr m => putShortReal m cwd t addr
      run fpop
  | 0x24 => some do
      let addr ← ea code
      run (modify fun s => s.loadEnv addr)
  | 0x25 => some do
      let addr ← ea code
      run (modify fun s =>
        { s with cwd := (s.cwd &&& 0xffff0000) ||| (getFsWord s.mem addr).setWidth 32 })
  | 0x26 => some do
      let addr ← ea code
      run (modify fun s => { s with mem := s.storeEnv addr })
  | 0x27 => some do
      let addr ← ea code
      run (modify fun s => { s with mem := putFsWord (s.cwd.setWidth 16) addr s.mem })
  | 0x62 => some (putInt code fun cwd t addr m => putLongInt m cwd t addr)
  | 0x63 => some do
      putInt code fun cwd t addr m => putLongInt m cwd t addr
      run fpop
  | 0x65 => some (pushOperand code fun m addr => some (getTempReal m addr))
  | 0x67 => some do
      putReal code fun _ t addr m => putTempReal m t addr
      run fpop
  | 0xa2 => some (putReal code fun cwd t addr m => putLongReal m cwd t addr)
  | 0xa3 => some do
      putReal code fun cwd t addr m => putLongReal m cwd t addr
      run fpop
  | 0xa4 => some do
      let addr ← ea code
      run (modify fun s => (s.loadStack (addr + 28)).loadEnv addr)
  | 0xa6 => some do
      let addr ← ea code
      run (modify fun s =>
        { s.init with mem := s.storeStack (addr + 28) (s.storeEnv addr) })
  | 0xa7 => some do
      let addr ← ea code
      run (modify fun s => { s with mem := putFsWord (s.swd.setWidth 16) addr s.mem })
  | 0xe2 => some (putInt code fun cwd t addr m => putShortInt m cwd t addr)
  | 0xe3 => some do
      putInt code fun cwd t addr m => putShortInt m cwd t addr
      run fpop
  | 0xe4 => some (pushOperand code getBCD)
  | 0xe5 => some (pushOperand code getLonglongInt)
  | 0xe6 => some do
      putInt code fun cwd t addr m => putBCD m cwd t addr
      run fpop
  | 0xe7 => some do
      putInt code fun cwd t addr m => putLonglongInt m cwd t addr
      run fpop
  | _ => none

/-- `tmp`, after the switch on `code >> 9`: it may be left unassigned. -/
def operand (code : ℕ) : Emu (Option TempReal) :=
  match code / 2 ^ 9 with
  | 0 => some <$> getOperand code fun m addr => some (getShortReal m addr)
  | 1 => some <$> getOperand code getLongInt
  | 2 => some <$> getOperand code fun m addr => some (getLongReal m addr)
  | 4 => some <$> getOperand code getShortInt
  | _ => pure none

/-- The last switch, on `(code >> 3) & 0x27`, and what comes after it. -/
def operandCase (op code : ℕ) (tmp : Option TempReal) : Emu Unit :=
  match op with
  | 0 => run do setSt 0 (← add (← assigned tmp) (← st 0))
  | 1 => run do setSt 0 (← assigned ((← mul (← assigned tmp) (← st 0)) <|> tmp))
  | 2 => run do com (← assigned tmp) (← st 0)
  | 3 => run do com (← assigned tmp) (← st 0); fpop
  | 4 => run do setSt 0 (← add (← assigned tmp).negate (← st 0))
  | 5 => run do
      setSt 0 (← st 0).negate
      setSt 0 (← add (← assigned tmp) (← st 0))
  | 6 => run do setSt 0 (← assigned ((← div (← st 0) (← assigned tmp)) <|> tmp))
  | 7 => run do setSt 0 (← assigned ((← div (← assigned tmp) (← st 0)) <|> tmp))
  | _ =>
    if code &&& 0x138 = 0x100 then
      run do
        fpush
        setSt 0 (← assigned tmp)
    else mathAbort SIGFPE

/-! ### `do_emu` -/

/-- `bswapw`. -/
def bswapw (x : BitVec 16) : BitVec 16 := x.setWidth 8 ++ (x >>> 8).setWidth 8

/-- The busy flag, and `ORIG_EIP`. -/
def Emulator.enter (s : Emulator) : Emulator :=
  { s with
    swd := if s.cwd &&& s.swd &&& 0x3f ≠ 0 then s.swd ||| 0x8000 else s.swd &&& 0x7fff
    origEip := s.eip }

/-- `code`. -/
def Emulator.code (s : Emulator) : ℕ := (bswapw (getFsWord s.mem s.eip) &&& 0x7ff).toNat

/-- `I387.fip` and `I387.fcs`, and `EIP += 2`. -/
def Emulator.advance (s : Emulator) : Emulator :=
  { s with
    fip := s.eip
    fcs := BitVec.ofNat 16 s.code ++ s.cs
    eip := s.eip + 2 }

/-- The four switches. -/
def dispatch (code : ℕ) : Emu Unit :=
  match fixedCase code with
  | some x => x
  | none =>
    match registerCase (code / 2 ^ 3) (code % 8) with
    | some x => x
    | none =>
      match memoryCase (code / 2 ^ 3 &&& 0xe7) code with
      | some x => x
      | none => do
        let tmp ← operand code
        operandCase (code / 2 ^ 3 &&& 0x27) code tmp

def doEmu : Emu Unit := do
  let s ← run get
  if s.cs ≠ 0x000f then run (throw .panic)
  else
    run (set s.enter.advance)
    dispatch s.code

/-! ### The address of an operand -/

def Emulator.top (s : Emulator) : ℕ := s.swd.toNat / 2 ^ 11 % 8

/-- What an instruction that is aborted must not change, besides EIP. -/
structure Emulator.Keeps (s s' : Emulator) : Prop where
  top : s'.top = s.top
  stSpace : s'.stSpace = s.stSpace
  cwd : s'.cwd = s.cwd
  mem : s'.mem = s.mem

theorem Emulator.Keeps.refl (s : Emulator) : s.Keeps s := ⟨rfl, rfl, rfl, rfl⟩

theorem Emulator.Keeps.trans {s s₁ s₂ : Emulator} (h : s.Keeps s₁) (h₁ : s₁.Keeps s₂) :
    s.Keeps s₂ where
  top := h₁.top.trans h.top
  stSpace := h₁.stSpace.trans h.stSpace
  cwd := h₁.cwd.trans h.cwd
  mem := h₁.mem.trans h.mem

/-- As an instruction is fetched further. -/
def Fetches (s s' : Emulator) : Prop := s.Keeps s' ∧ s'.origEip = s.origEip

/-- As `__math_abort` leaves it. -/
def Restores (s s' : Emulator) : Prop := s.Keeps s' ∧ s'.eip = s.origEip

theorem Fetches.refl (s : Emulator) : Fetches s s := ⟨.refl s, rfl⟩

theorem Fetches.trans (s s₁ s₂ : Emulator) (h : Fetches s s₁) (h₁ : Fetches s₁ s₂) :
    Fetches s s₂ :=
  ⟨h.1.trans h₁.1, h₁.2.trans h.2⟩

theorem Fetches.restores (s s₁ s₂ : Emulator) (h : Fetches s s₁) (h₁ : Restores s₁ s₂) :
    Restores s s₂ :=
  ⟨h.1.trans h₁.1, h₁.2.trans h.2⟩

theorem mathAbort_restores {α : Type} (n : ℕ) : Aborts (mathAbort n : Emu α) Restores :=
  aborts_abort _ fun _ => ⟨⟨rfl, rfl, rfl, rfl⟩, rfl⟩

theorem fetchByte_fetches : Does fetchByte Fetches :=
  does_modifyGet _ fun _ => ⟨⟨rfl, rfl, rfl, rfl⟩, rfl⟩

theorem fetchLong_fetches : Does fetchLong Fetches :=
  does_modifyGet _ fun _ => ⟨⟨rfl, rfl, rfl, rfl⟩, rfl⟩

theorem reg_fetches (x : ℕ) : Does (reg x) Fetches := by
  intro s a s' hs
  cases hs
  exact .refl s

theorem noteOperand_fetches (offset : BitVec 32) : Does (noteOperand offset) Fetches :=
  does_modifyGet _ fun _ => ⟨⟨rfl, rfl, rfl, rfl⟩, rfl⟩

theorem fetchSigned_fetches : Does fetchSigned Fetches :=
  does_bind Fetches.trans fetchByte_fetches fun _ => does_pure _ Fetches.refl

theorem sibIndex_fetches (index : ℕ) : Does (sibIndex index) Fetches := by
  unfold sibIndex
  split
  · exact does_pure _ Fetches.refl
  · exact reg_fetches index

theorem sibBase_fetches (mod base : ℕ) : Does (sibBase mod base) Fetches := by
  unfold sibBase
  split
  · exact reg_fetches base
  · exact does_pure _ Fetches.refl

theorem sibDisplacement_fetches (mod base : ℕ) : Does (sibDisplacement mod base) Fetches := by
  unfold sibDisplacement
  split_ifs
  · exact fetchSigned_fetches
  · exact fetchLong_fetches
  · exact does_pure _ Fetches.refl

theorem sib_fetches (mod : ℕ) : Does (sib mod) Fetches := by
  refine does_bind Fetches.trans fetchByte_fetches fun byte => ?_
  refine does_bind Fetches.trans (sibIndex_fetches _) fun index => ?_
  refine does_bind Fetches.trans (sibBase_fetches mod _) fun base => ?_
  refine does_bind Fetches.trans (sibDisplacement_fetches mod _) fun displacement => ?_
  exact does_bind Fetches.trans (noteOperand_fetches _) fun _ => does_pure _ Fetches.refl

theorem displacement_fetches (mod : ℕ) : Does (displacement mod) Fetches := by
  unfold displacement
  split
  · exact does_pure _ Fetches.refl
  · exact fetchSigned_fetches
  · exact fetchLong_fetches

theorem ea_fetches (code : ℕ) : Leaves (ea code) Fetches := by
  unfold ea
  dsimp only
  split_ifs
  · exact leaves_run (sib_fetches _)
  · refine leaves_run (does_bind Fetches.trans fetchLong_fetches fun offset => ?_)
    exact does_bind Fetches.trans (noteOperand_fetches offset) fun _ => does_pure _ Fetches.refl
  · exact leaves_abort _
  · refine leaves_run (does_bind Fetches.trans (displacement_fetches _) fun offset => ?_)
    refine does_bind Fetches.trans (noteOperand_fetches offset) fun _ => ?_
    exact does_bind Fetches.trans (reg_fetches _) fun _ => does_pure _ Fetches.refl

/-- The modes of `ea` that are not those of memory are refused. -/
theorem ea_restores (code : ℕ) : Aborts (ea code) Restores := by
  unfold ea
  dsimp only
  split_ifs
  · exact aborts_run _
  · exact aborts_run _
  · exact mathAbort_restores SIGILL
  · exact aborts_run _

theorem ea_register {code : ℕ} (hmod : code / 2 ^ 6 % 4 = 3) : ea code = mathAbort SIGILL := by
  unfold ea
  rw [if_neg (by omega), if_neg (by omega), if_pos hmod]

theorem ea_memory {code : ℕ} (hmod : code / 2 ^ 6 % 4 ≠ 3) {R : Emulator → Emulator → Prop} :
    Aborts (ea code) R := by
  unfold ea
  dsimp only
  split_ifs
  · exact aborts_run _
  · exact aborts_run _
  · exact aborts_run _

/-! ### What an aborted instruction leaves alone -/

theorem getOperand_restores (code : ℕ) (load : Memory → Addr → Option TempReal) :
    Aborts (getOperand code load) Restores :=
  aborts_bind_run (ea_restores code)

theorem getOperand_fetches (code : ℕ) (load : Memory → Addr → Option TempReal) :
    Leaves (getOperand code load) Fetches := by
  refine leaves_bind Fetches.trans (ea_fetches code) fun addr => leaves_run ?_
  intro s t s' hs
  change (loaded (load s.mem addr)) s = _ at hs
  cases hload : load s.mem addr with
  | none => rw [hload] at hs; cases hs
  | some t' =>
    rw [hload] at hs
    cases hs
    exact .refl s

theorem putReal_restores (code : ℕ) (store : BitVec 32 → TempReal → Addr → Memory → Memory) :
    Aborts (putReal code store) Restores :=
  aborts_bind_run (ea_restores code)

theorem putInt_restores (code : ℕ) (store : BitVec 32 → TempReal → Addr → Memory → Memory) :
    Aborts (putInt code store) Restores :=
  aborts_bind_run (ea_restores code)

theorem fixedCase_restores {code : ℕ} {x : Emu Unit} (h : fixedCase code = some x) :
    Aborts x Restores := by
  unfold fixedCase at h
  split at h <;> cases h
  all_goals
    first
    | exact aborts_run _
    | exact mathAbort_restores SIGILL
    | exact aborts_pure ()

theorem registerCase_restores {op i : ℕ} {x : Emu Unit} (h : registerCase op i = some x) :
    Aborts x Restores := by
  unfold registerCase at h
  split at h <;> cases h
  all_goals
    first
    | exact aborts_run _
    | exact mathAbort_restores SIGILL

theorem pushOperand_memory {code : ℕ} (hmod : code / 2 ^ 6 % 4 ≠ 3)
    (load : Memory → Addr → Option TempReal) {R : Emulator → Emulator → Prop} :
    Aborts (pushOperand code load) R := by
  have hoperand : Aborts (getOperand code load) fun _ _ => False :=
    aborts_bind_run (ea_memory hmod)
  have hfalse : ∀ s s₁ s₂ : Emulator, True → False → R s s₂ := fun _ _ _ _ => False.elim
  exact aborts_bind hfalse (fun _ _ _ _ => trivial) (aborts_run _) fun _ => aborts_bind_run hoperand

/-- The loads that push before the address of the operand is known: FLD of a temporary real, FBLD
and FILD of a long long. -/
def PushesFirst (op : ℕ) : Prop := op = 0x65 ∨ op = 0xe4 ∨ op = 0xe5

theorem memoryCase_restores {op code : ℕ} {x : Emu Unit} (h : memoryCase op code = some x)
    (hmemory : PushesFirst op → code / 2 ^ 6 % 4 ≠ 3) : Aborts x Restores := by
  have hea := ea_restores code
  have hput := putReal_restores code
  have hputInt := putInt_restores code
  unfold memoryCase at h
  split at h <;> cases h
  case h_1 => exact aborts_run _
  case h_3 | h_4 | h_5 | h_6 | h_13 | h_14 | h_15 => exact aborts_bind_run hea
  case h_2 | h_10 | h_12 => exact aborts_bind_run (hput _)
  case h_11 => exact hput _
  case h_7 | h_16 => exact hputInt _
  case h_8 | h_17 | h_20 | h_21 => exact aborts_bind_run (hputInt _)
  case h_9 => exact pushOperand_memory (hmemory (.inl rfl)) _
  case h_18 => exact pushOperand_memory (hmemory (.inr (.inl rfl))) _
  case h_19 => exact pushOperand_memory (hmemory (.inr (.inr rfl))) _

theorem operand_restores (code : ℕ) : Aborts (operand code) Restores := by
  unfold operand
  split
  case h_5 => exact aborts_pure none
  all_goals exact aborts_map some (getOperand_restores code _)

theorem operand_fetches (code : ℕ) : Leaves (operand code) Fetches := by
  unfold operand
  split
  case h_5 => exact leaves_pure none Fetches.refl
  all_goals exact leaves_map some (getOperand_fetches code _)

theorem operandCase_restores (op code : ℕ) (tmp : Option TempReal) :
    Aborts (operandCase op code tmp) Restores := by
  unfold operandCase
  split
  case h_9 =>
    split
    · exact aborts_run _
    · exact mathAbort_restores SIGFPE
  all_goals exact aborts_run _

theorem dispatch_restores {code : ℕ}
    (hmemory : fixedCase code = none → PushesFirst (code / 2 ^ 3 &&& 0xe7) →
      code / 2 ^ 6 % 4 ≠ 3) : Aborts (dispatch code) Restores := by
  unfold dispatch
  split
  case h_1 hfixed => exact fixedCase_restores hfixed
  case h_2 hfixed =>
    split
    case h_1 hregister => exact registerCase_restores hregister
    case h_2 =>
      split
      case h_1 hcase => exact memoryCase_restores hcase (hmemory hfixed)
      case h_2 =>
        exact aborts_bind Fetches.restores (operand_fetches code) (operand_restores code)
          fun tmp => operandCase_restores _ code tmp

/-! ### Which instructions leave a trace -/

/-- EIP and what else an instruction that is aborted must not change. -/
def NoTrace (s s' : Emulator) : Prop := s.Keeps s' ∧ s'.eip = s.eip

/-- The loads that push first, with a register in the place of memory. -/
def PushesRegister (code : ℕ) : Prop :=
  0x3e8 ≤ code ∧ code ≤ 0x3ef ∨ 0x7e1 ≤ code ∧ code ≤ 0x7ef

theorem pushesFirst_iff : ∀ op < 256, op / 2 ^ 3 % 4 = 3 →
    (PushesFirst (op &&& 0xe7) ↔ op = 0x7d ∨ op = 0xfc ∨ op = 0xfd) := by
  unfold PushesFirst
  decide +kernel

theorem code_lt (s : Emulator) : s.code < 2 ^ 11 := by
  rw [Emulator.code, BitVec.toNat_and]
  exact Nat.lt_of_le_of_lt Nat.and_le_right (by decide)

/-- `case 0x7e0` is the only one of the first switch among them. -/
theorem fixedCase_pushes {code : ℕ} (h : PushesRegister code) : fixedCase code = none := by
  unfold PushesRegister at h
  unfold fixedCase
  split <;> first | rfl | omega

theorem pushesRegister_of {code : ℕ} (hlt : code < 2 ^ 11) (hfixed : fixedCase code = none)
    (hop : PushesFirst (code / 2 ^ 3 &&& 0xe7)) (hmod : code / 2 ^ 6 % 4 = 3) :
    PushesRegister code := by
  have hne : code ≠ 0x7e0 := by
    rintro rfl
    cases hfixed
  have := (pushesFirst_iff (code / 2 ^ 3) (by omega) (by omega)).mp hop
  unfold PushesRegister
  omega

theorem dispatch_pushes {code : ℕ} (h : PushesRegister code) :
    ∃ load, dispatch code = pushOperand code load := by
  have hfixed := fixedCase_pushes h
  have hop : code / 2 ^ 3 = 0x7d ∨ code / 2 ^ 3 = 0xfc ∨ code / 2 ^ 3 = 0xfd := by
    unfold PushesRegister at h
    omega
  unfold dispatch
  rw [hfixed]
  rcases hop with hop | hop | hop <;> rw [hop] <;> exact ⟨_, rfl⟩

theorem exec_pushOperand {code : ℕ} (hmod : code / 2 ^ 6 % 4 = 3)
    (load : Memory → Addr → Option TempReal) (s : Emulator) :
    ∃ s', exec (pushOperand code load) s = .ok (.error (), s') ∧ s'.swd = (s.rotate 0x3800).swd := by
  unfold pushOperand getOperand
  rw [ea_register hmod]
  exact ⟨_, rfl, rfl⟩

theorem exec_doEmu_kernel {s : Emulator} (hcs : s.cs ≠ 0x000f) :
    exec doEmu s = .error .panic := by
  unfold doEmu
  rw [exec_bind, exec_run]
  change exec (if s.cs ≠ 0x000f then _ else _) s = _
  rw [if_pos hcs]
  rfl

theorem top_eq (s : Emulator) : s.top = (s.swd.extractLsb' 11 3).toNat := by
  rw [Emulator.top, BitVec.extractLsb'_toNat, Nat.shiftRight_eq_div_pow]

/-- `fpush` changes the parity of TOP. -/
theorem top_rotate (s : Emulator) : (s.rotate 0x3800).top ≠ s.top := by
  intro htop
  have hbit : (s.rotate 0x3800).swd.getLsbD 11 = (s.swd + 0x3800).getLsbD 11 := by
    simp [Emulator.rotate]
  have hadd : (s.swd + 0x3800).toNat / 2 ^ 11 % 2 = (s.swd.toNat / 2 ^ 11 + 1) % 2 := by
    rw [BitVec.toNat_add]
    change (s.swd.toNat + 14336) % 2 ^ 32 / 2 ^ 11 % 2 = _
    omega
  rw [BitVec.getLsbD, BitVec.getLsbD, Nat.testBit_eq_decide_div_mod_eq,
    Nat.testBit_eq_decide_div_mod_eq, decide_eq_decide, hadd] at hbit
  unfold Emulator.top at htop
  omega

theorem top_enter (s : Emulator) : s.enter.advance.top = s.top := by
  have hor : (s.swd ||| 0x8000).extractLsb' 11 3 = s.swd.extractLsb' 11 3 := by
    rw [BitVec.extractLsb'_or]
    simp
  have hand : (s.swd &&& 0x7fff).extractLsb' 11 3 = s.swd.extractLsb' 11 3 := by
    rw [BitVec.extractLsb'_and]
    exact BitVec.and_allOnes
  rw [top_eq, top_eq]
  unfold Emulator.advance Emulator.enter
  dsimp only
  split
  · rw [hor]
  · rw [hand]

theorem exec_doEmu {s : Emulator} (hcs : s.cs = 0x000f) :
    exec doEmu s = exec (dispatch s.code) s.enter.advance := by
  unfold doEmu
  rw [exec_bind, exec_run]
  change exec (if s.cs ≠ 0x000f then _ else _) s = _
  rw [if_neg (not_not.mpr hcs)]
  rfl

theorem enter_keeps (s : Emulator) : s.Keeps s.enter.advance := ⟨top_enter s, rfl, rfl, rfl⟩

/-- An instruction that is aborted has computed an address and nothing else, unless it pushes
first: then TOP is not what it was. -/
theorem aborted_leaves_no_trace (s : Emulator) :
    (∀ s', exec doEmu s = .ok (.error (), s') → NoTrace s s') ↔
      ¬ (s.cs = 0x000f ∧ PushesRegister s.code) := by
  constructor
  · rintro h ⟨hcs, hcode⟩
    have hmod : s.code / 2 ^ 6 % 4 = 3 := by
      unfold PushesRegister at hcode
      omega
    obtain ⟨load, hdispatch⟩ := dispatch_pushes hcode
    obtain ⟨s', hs', hswd⟩ := exec_pushOperand hmod load s.enter.advance
    rw [exec_doEmu hcs, hdispatch] at h
    -- The push is not undone.
    refine top_rotate s.enter.advance ?_
    calc (s.enter.advance.rotate 0x3800).top = s'.top := by rw [Emulator.top, Emulator.top, hswd]
      _ = s.top := (h s' hs').1.top
      _ = s.enter.advance.top := (top_enter s).symm
  · intro h s' hs'
    by_cases hcs : s.cs = 0x000f
    · rw [exec_doEmu hcs] at hs'
      have hrestores : Restores s.enter.advance s' := by
        refine dispatch_restores ?_ _ s' hs'
        intro hfixed hop hmod
        exact h ⟨hcs, pushesRegister_of (code_lt s) hfixed hop hmod⟩
      exact ⟨(enter_keeps s).trans hrestores.1, hrestores.2⟩
    · rw [exec_doEmu_kernel hcs] at hs'
      cases hs'

/-- The bytes DB E8 at address 0, in user mode after `finit`. -/
def fldRegister : Emulator where
  cwd := 0x037f
  swd := 0
  twd := 0
  fip := 0
  fcs := 0
  foo := 0
  fos := 0
  stSpace := fun _ => CONSTZ
  regs := fun _ => 0
  eip := 0
  origEip := 0
  cs := 0x000f
  mem := fun addr => if addr = 0 then 0xdb else if addr = 1 then 0xe8 else 0
  signal := 0

theorem fldRegister_leaves_trace :
    ∃ s', exec doEmu fldRegister = .ok (.error (), s') ∧ s'.eip = 0 ∧ s'.top = 7 ∧
      ¬ NoTrace fldRegister s' := by
  refine ⟨_, rfl, by decide, by decide, ?_⟩
  rintro ⟨hkeeps, -⟩
  exact absurd hkeeps.top (by decide)

end MathEmu
