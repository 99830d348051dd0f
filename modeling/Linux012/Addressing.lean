/-
Operands in the memory of an IA-32.

* `Register.ofCode` — the registers as they are numbered;
* `Operand`, `Operand.address` — a base, an index with its scale and a displacement, and their sum
  modulo 2^32;
* `littleEndian`, `signedEndian` — the numbers that bytes stand for;
* `decode` — the operand that a ModRM byte and the bytes behind it stand for, and how many of
  these there are.
-/
import Mathlib.Algebra.Ring.Int.Defs
import Mathlib.Algebra.Ring.Nat
import Mathlib.Data.Int.Notation
import Mathlib.Data.Nat.Notation

namespace Addressing

inductive Register where
  | eax
  | ecx
  | edx
  | ebx
  | esp
  | ebp
  | esi
  | edi
  deriving DecidableEq

def Register.ofCode (code : ℕ) : Register :=
  match code with
  | 0 => .eax
  | 1 => .ecx
  | 2 => .edx
  | 3 => .ebx
  | 4 => .esp
  | 5 => .ebp
  | 6 => .esi
  | _ => .edi

structure Operand where
  base : Option Register
  /-- With the logarithm of the scale. -/
  index : Option (Register × ℕ)
  displacement : ℤ

def Operand.baseValue (op : Operand) (regs : Register → BitVec 32) : ℕ :=
  match op.base with
  | none => 0
  | some r => (regs r).toNat

def Operand.indexValue (op : Operand) (regs : Register → BitVec 32) : ℕ :=
  match op.index with
  | none => 0
  | some (r, scale) => (regs r).toNat * 2 ^ scale

/-- The effective address. -/
def Operand.address (op : Operand) (regs : Register → BitVec 32) : BitVec 32 :=
  BitVec.ofInt 32 (op.baseValue regs + op.indexValue regs + op.displacement)

/-- The first `n` bytes as a number. -/
def littleEndian (bytes : ℕ → BitVec 8) : ℕ → ℕ
  | 0 => 0
  | n + 1 => (bytes 0).toNat + 256 * littleEndian (fun i => bytes (i + 1)) n

/-- The first `n` bytes as a number with a sign. -/
def signedEndian (bytes : ℕ → BitVec 8) (n : ℕ) : ℤ :=
  Int.bmod (littleEndian bytes n) (256 ^ n)

/-- How many bytes of displacement there are. Base 5 with mod 0 is no base but a displacement. -/
def displacementSize (mod base : ℕ) : ℕ :=
  match mod with
  | 0 => if base = 5 then 4 else 0
  | 1 => 1
  | _ => 4

/-- From the fields mod and r/m of the ModRM byte, and the bytes that come after it. -/
def decode (mod rm : ℕ) (bytes : ℕ → BitVec 8) : Operand × ℕ :=
  let sib := (bytes 0).toNat
  let sibSize := if rm = 4 then 1 else 0
  let base := if rm = 4 then sib % 8 else rm
  let index := sib / 8 % 8
  let size := displacementSize mod base
  ({ base := if mod = 0 ∧ base = 5 then none else some (.ofCode base)
     index := if rm = 4 ∧ index ≠ 4 then some (.ofCode index, sib / 64) else none
     displacement := signedEndian (fun i => bytes (sibSize + i)) size },
    sibSize + size)

/-! ### Sums of words -/

variable {w : ℕ}

theorem ofInt_toNat (x : BitVec w) : BitVec.ofInt w x.toNat = x := by
  rw [BitVec.ofInt_natCast, BitVec.ofNat_toNat, BitVec.setWidth_eq]

/-- A scaled index. -/
theorem ofInt_shift (x : BitVec w) (k : ℕ) :
    BitVec.ofInt w ((x.toNat * 2 ^ k : ℕ) : ℤ) = x <<< k := by
  refine BitVec.eq_of_toNat_eq ?_
  rw [BitVec.ofInt_natCast, BitVec.toNat_ofNat, BitVec.toNat_shiftLeft, Nat.shiftLeft_eq]

theorem ofInt_bmod (n : ℤ) : BitVec.ofInt w (n.bmod (2 ^ w)) = BitVec.ofInt w n := by
  rw [← BitVec.toInt_ofInt, BitVec.ofInt_toInt]

theorem Operand.ofInt_base {op : Operand} {p : Prop} [Decidable p] {r : Register}
    (h : op.base = if p then none else some r) (regs : Register → BitVec 32) :
    BitVec.ofInt 32 (op.baseValue regs) = if p then 0 else regs r := by
  rw [baseValue, h]
  by_cases hp : p
  · rw [if_pos hp, if_pos hp]
    rfl
  · rw [if_neg hp, if_neg hp]
    exact ofInt_toNat _

theorem Operand.ofInt_index {op : Operand} {p : Prop} [Decidable p] {r : Register} {k : ℕ}
    (h : op.index = if p then some (r, k) else none) (regs : Register → BitVec 32) :
    BitVec.ofInt 32 (op.indexValue regs) = (if p then regs r else 0) <<< k := by
  rw [indexValue, h]
  by_cases hp : p
  · rw [if_pos hp, if_pos hp]
    exact ofInt_shift _ _
  · rw [if_neg hp, if_neg hp]
    change 0#32 = 0#32 <<< k
    rw [BitVec.zero_shiftLeft]

theorem Operand.ofInt_no_index {op : Operand} (h : op.index = none)
    (regs : Register → BitVec 32) : BitVec.ofInt 32 (op.indexValue regs) = 0#32 := by
  rw [indexValue, h]
  rfl

/-- The address as a sum of words. -/
theorem Operand.address_eq (op : Operand) (regs : Register → BitVec 32) :
    op.address regs = BitVec.ofInt 32 (op.baseValue regs) +
      BitVec.ofInt 32 (op.indexValue regs) + BitVec.ofInt 32 op.displacement := by
  rw [address, BitVec.ofInt_add, BitVec.ofInt_add]

end Addressing
