/-
The address of an operand is the one that the processor would use (`ea` and `sib` of
kernel/math/ea.c, `struct info` of linux/math_emu.h).

* `Field`, `Info` — the registers of the user on the kernel stack;
* `Info.reg` — a register is found by its number;
* `sib_run`, `ea_run` — what the functions return, and how far EIP goes;
* `operand_address` — it is the operand that the instruction names, and EIP is behind it.
-/
import Linux012.Addressing
import Linux012.Emulator

open Aborting Addressing

namespace MathEmu

/-! ### The frame -/

/-- The longs of `struct info`. -/
inductive Field where
  | mathRet
  | origEip
  | edi
  | esi
  | ebp
  | sysCallRet
  | eax
  | ebx
  | ecx
  | edx
  | origEax
  | fs
  | es
  | ds
  | eip
  | cs
  | eflags
  | esp
  | ss
  deriving DecidableEq

/-- `offsetof`. -/
def Field.offset (f : Field) : ℕ := 4 * f.ctorIdx

/-- `__regoffset`. -/
def regoffset : List ℕ :=
  [Field.eax.offset, Field.ecx.offset, Field.edx.offset, Field.ebx.offset, Field.esp.offset,
    Field.ebp.offset, Field.esi.offset, Field.edi.offset]

/-- The long at an offset. -/
abbrev Info : Type := ℕ → BitVec 32

/-- `REG`. -/
def Info.reg (info : Info) (x : Fin 8) : BitVec 32 := info (regoffset.get x)

/-- The registers by their names. -/
def Info.general (info : Info) (r : Register) : BitVec 32 :=
  match r with
  | .eax => info Field.eax.offset
  | .ecx => info Field.ecx.offset
  | .edx => info Field.edx.offset
  | .ebx => info Field.ebx.offset
  | .esp => info Field.esp.offset
  | .ebp => info Field.ebp.offset
  | .esi => info Field.esi.offset
  | .edi => info Field.edi.offset

theorem reg_eq (info : Info) {x : ℕ} (hx : x < 8) :
    info.reg ⟨x % 8, Nat.mod_lt x (by decide)⟩ = info.general (.ofCode x) := by
  match x with
  | 0 | 1 | 2 | 3 | 4 | 5 | 6 | 7 => rfl
  | x + 8 => omega

/-- The emulator is called with the frame. -/
def Emulator.withInfo (s : Emulator) (info : Info) : Emulator :=
  { s with regs := info.reg, eip := info Field.eip.offset, origEip := info Field.origEip.offset }

/-! ### What is fetched -/

/-- The bytes that EIP points at. -/
def Emulator.behind (s : Emulator) (i : ℕ) : BitVec 8 := s.mem (s.eip + BitVec.ofNat 32 i)

/-- The displacement at EIP. -/
def Emulator.displaced (s : Emulator) (size : ℕ) : BitVec 32 :=
  BitVec.ofInt 32 (signedEndian s.behind size)

def Emulator.moved (s : Emulator) (n : ℕ) : Emulator :=
  { s with eip := s.eip + BitVec.ofNat 32 n }

variable (s : Emulator) {mod rm base : ℕ}

theorem behind_moved (n i : ℕ) : (s.moved n).behind i = s.behind (n + i) := by
  rw [Emulator.behind, Emulator.behind, BitVec.ofNat_add, ← BitVec.add_assoc]
  rfl

theorem moved_moved (n k : ℕ) : (s.moved n).moved k = s.moved (n + k) := by
  rw [Emulator.moved, Emulator.moved, Emulator.moved, BitVec.ofNat_add, ← BitVec.add_assoc]

theorem moved_zero : s.moved 0 = s := by
  rw [Emulator.moved, BitVec.add_zero]

theorem behind_zero : s.behind 0 = getFsByte s.mem s.eip := by
  rw [Emulator.behind, BitVec.add_zero]
  rfl

theorem getFsWord_toNat (m : Memory) (addr : Addr) :
    (getFsWord m addr).toNat = (m addr).toNat + 256 * (m (addr + 1)).toNat := by
  rw [getFsWord, BitVec.toNat_append, ← Nat.shiftLeft_add_eq_or_of_lt (BitVec.isLt _),
    Nat.shiftLeft_eq]
  omega

theorem getFsLong_toNat : (getFsLong s.mem s.eip).toNat = littleEndian s.behind 4 := by
  have hnext : s.eip + 2 + 1 = s.eip + 3 := BitVec.add_assoc _ _ _
  rw [getFsLong, BitVec.toNat_append, ← Nat.shiftLeft_add_eq_or_of_lt (BitVec.isLt _),
    Nat.shiftLeft_eq, getFsWord_toNat, getFsWord_toNat, hnext,
    show s.mem s.eip = s.behind 0 from (behind_zero s).symm]
  simp only [littleEndian]
  change _ = (s.behind 0).toNat + 256 * ((s.mem (s.eip + 1)).toNat +
    256 * ((s.mem (s.eip + 2)).toNat + 256 * ((s.mem (s.eip + 3)).toNat + 256 * 0)))
  omega

theorem fetchByte_run : fetchByte s = .ok (s.behind 0, s.moved 1) := by
  rw [behind_zero]
  rfl

theorem fetchLong_run : fetchLong s = .ok (s.displaced 4, s.moved 4) := by
  have hlong : s.displaced 4 = getFsLong s.mem s.eip := by
    rw [Emulator.displaced, signedEndian, ← getFsLong_toNat]
    exact (ofInt_bmod _).trans (ofInt_toNat _)
  rw [hlong]
  rfl

theorem fetchSigned_run : fetchSigned s = .ok (s.displaced 1, s.moved 1) := by
  have hbyte : s.displaced 1 = (s.behind 0).signExtend 32 := by
    rw [BitVec.signExtend, BitVec.toInt_eq_toNat_bmod]
    rfl
  rw [hbyte, behind_zero]
  rfl

/-! ### The fields -/

theorem displacement_run (h : mod < 3) (hr : ¬ (rm = 5 ∧ mod = 0)) : displacement mod s =
    .ok (s.displaced (displacementSize mod rm), s.moved (displacementSize mod rm)) := by
  match mod with
  | 0 =>
    have hsize : displacementSize 0 rm = 0 := if_neg fun hrm => hr ⟨hrm, rfl⟩
    rw [hsize, moved_zero]
    rfl
  | 1 => exact fetchSigned_run s
  | 2 => exact fetchLong_run s
  | mod + 3 => omega

theorem sibDisplacement_run (h : mod < 3) : sibDisplacement mod base s =
    .ok (s.displaced (displacementSize mod base), s.moved (displacementSize mod base)) := by
  rw [sibDisplacement]
  match mod with
  | 0 =>
    rw [if_neg (by decide)]
    by_cases hbase : base = 5
    · rw [if_pos (.inr hbase), displacementSize, if_pos hbase]
      exact fetchLong_run s
    · rw [if_neg (by omega), displacementSize, if_neg hbase, moved_zero]
      rfl
  | 1 => exact fetchSigned_run s
  | 2 => exact fetchLong_run s
  | mod + 3 => omega

section

variable {s} {info : Info} (hregs : s.regs = info.reg)

include hregs

theorem reg_run {x : ℕ} (hx : x < 8) : reg x s = .ok (info.general (.ofCode x), s) := by
  rw [← reg_eq info hx, ← hregs]
  rfl

/-- The index register, and none for code 4. -/
theorem sibIndex_run {index : ℕ} (hi : index < 8) : sibIndex index s =
    .ok (if index = 4 then 0 else info.general (.ofCode index), s) := by
  rw [sibIndex]
  split
  · rfl
  · exact reg_run hregs hi

theorem sibBase_run (hb : base < 8) : sibBase mod base s =
    .ok (if mod = 0 ∧ base = 5 then 0 else info.general (.ofCode base), s) := by
  rw [sibBase]
  by_cases h : mod = 0 ∧ base = 5
  · rw [if_pos h, if_neg (by omega)]
    rfl
  · rw [if_neg h, if_pos (by omega)]
    exact reg_run hregs hb

/-! ### The address -/

omit hregs in
theorem bind_run {α β : Type} {x : Reg α} {f : α → Reg β} {a : α} {s' : Emulator}
    (h : x s = .ok (a, s')) : (x >>= f) s = f a s' := by
  change (x s >>= fun p => f p.1 p.2) = _
  rw [h]
  rfl

theorem sib_run (h : mod < 3) : ∃ foo, sib mod s =
    .ok ((decode mod 4 s.behind).1.address info.general,
      { s.moved (decode mod 4 s.behind).2 with foo := foo, fos := 0x17 }) := by
  have hindex : (s.behind 0).toNat / 2 ^ 3 % 8 < 8 := Nat.mod_lt _ (by decide)
  have hbase : (s.behind 0).toNat % 8 < 8 := Nat.mod_lt _ (by decide)
  have hregs' : (s.moved 1).regs = info.reg := hregs
  rw [sib, bind_run (fetchByte_run s)]
  dsimp only
  rw [bind_run (sibIndex_run hregs' hindex), bind_run (sibBase_run hregs' hbase),
    bind_run (sibDisplacement_run (s.moved 1) h), moved_moved]
  refine ⟨_, congrArg (fun a => Except.ok (a, _)) ?_⟩
  have hmoved : (s.moved 1).behind = fun i => s.behind (1 + i) := funext (behind_moved s 1)
  have hscaled : (if (s.behind 0).toNat / 2 ^ 3 % 8 = 4 then 0
      else info.general (.ofCode ((s.behind 0).toNat / 2 ^ 3 % 8))) =
      if 4 = 4 ∧ (s.behind 0).toNat / 8 % 8 ≠ 4 then
        info.general (.ofCode ((s.behind 0).toNat / 8 % 8)) else 0 := by
    change (if (s.behind 0).toNat / 8 % 8 = 4 then 0 else _) = _
    by_cases hfour : (s.behind 0).toNat / 8 % 8 = 4
    · rw [if_pos hfour, if_neg (not_and_not_right.mpr fun _ => hfour)]
    · rw [if_neg hfour, if_pos ⟨rfl, hfour⟩]
      rfl
  rw [Operand.address_eq, Operand.ofInt_base rfl, Operand.ofInt_index rfl, hscaled,
    Emulator.displaced, hmoved]
  rw [BitVec.add_comm (_ <<< _)]
  rfl

/-- No index, and a base that is the register of the ModRM byte. -/
theorem ea_run (code : ℕ) (h : code / 2 ^ 6 % 4 ≠ 3) : ∃ foo, exec (ea code) s =
    .ok (.ok ((decode (code / 2 ^ 6 % 4) (code % 8) s.behind).1.address info.general),
      { s.moved (decode (code / 2 ^ 6 % 4) (code % 8) s.behind).2 with
        foo := foo, fos := 0x17 }) := by
  have hmod : code / 2 ^ 6 % 4 < 3 := by omega
  have hrm : code % 8 < 8 := Nat.mod_lt _ (by decide)
  rw [ea]
  dsimp only
  by_cases hsib : code % 8 = 4
  · obtain ⟨foo, hrun⟩ := sib_run hregs hmod
    rw [if_pos ⟨hsib, h⟩, exec_run, hrun, hsib]
    exact ⟨foo, rfl⟩
  -- no SIB byte, and so no index
  have hdecode : decode (code / 2 ^ 6 % 4) (code % 8) s.behind =
      (⟨if code / 2 ^ 6 % 4 = 0 ∧ code % 8 = 5 then none else some (.ofCode (code % 8)), none,
        signedEndian s.behind (displacementSize (code / 2 ^ 6 % 4) (code % 8))⟩,
        displacementSize (code / 2 ^ 6 % 4) (code % 8)) := by
    simp only [decode, if_neg hsib, Nat.zero_add, if_neg fun hs => hsib (And.left hs)]
  rw [if_neg fun hs => hsib hs.1, hdecode, Operand.address_eq, Operand.ofInt_base rfl,
    Operand.ofInt_no_index rfl, BitVec.add_zero]
  by_cases hdirect : code % 8 = 5 ∧ code / 2 ^ 6 % 4 = 0
  · rw [if_pos hdirect, exec_run, bind_run (fetchLong_run s), if_pos hdirect.symm, hdirect.1,
      hdirect.2]
    have hsize : displacementSize 0 5 = 4 := rfl
    have hzero : 0 + BitVec.ofInt 32 (signedEndian s.behind 4) = s.displaced 4 :=
      BitVec.zero_add _
    dsimp only
    rw [hsize, hzero]
    exact ⟨_, rfl⟩
  · rw [if_neg hdirect, if_neg h, exec_run, bind_run (displacement_run s hmod hdirect),
      if_neg fun hd => hdirect hd.symm, BitVec.add_comm (info.general _), ← reg_eq info hrm,
      ← hregs]
    exact ⟨_, rfl⟩

end

/-- **Operands in memory are addressed as the processor does**: for every ModRM byte but those of
registers, `ea` returns the address of the operand that the bytes name, with the general registers
as they are in the frame, and EIP is behind these bytes. -/
theorem operand_address (s : Emulator) (info : Info) (code : ℕ) (h : code / 2 ^ 6 % 4 ≠ 3) :
    let s := s.withInfo info
    let op := decode (code / 2 ^ 6 % 4) (code % 8) fun i => s.mem (s.eip + BitVec.ofNat 32 i)
    ∃ foo, exec (ea code) s = .ok (.ok (op.1.address info.general),
      { s with eip := s.eip + BitVec.ofNat 32 op.2, foo := foo, fos := 0x17 }) :=
  ea_run (s := s.withInfo info) rfl code h

/-- EAX is 0x1000, EBX is 0x10, and all other longs are 0. -/
def twoRegisters : Info := fun offset =>
  if offset = Field.eax.offset then 0x1000 else if offset = Field.ebx.offset then 0x10 else 0

/-- `[eax+ebx*4-8]`. -/
theorem operand_address_scaled :
    let s := { fldRegister with mem := fun a => if a = 0 then 0x98 else 0xf8 }.withInfo twoRegisters
    ∃ foo, exec (ea 0x44) s = .ok (.ok 0x1038, { s with eip := 2, foo := foo, fos := 0x17 }) := by
  obtain ⟨foo, h⟩ := operand_address
    { fldRegister with mem := fun a => if a = 0 then 0x98 else 0xf8 } twoRegisters 0x44 (by decide)
  exact ⟨foo, h⟩

end MathEmu
