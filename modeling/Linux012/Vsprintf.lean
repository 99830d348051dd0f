/-
Formatted output (kernel/vsprintf.c).

* `skipAtoi`, `number` — numbers in the format, and numbers that are printed;
* `fieldWidth`, `precision`, `convert` — the parts of a conversion;
* `vsprintf` — the bytes that are written, the arguments that are taken, and what is returned.

Design notes: an `int` is a number that is wrapped after each operation; `while (x-- > 0)` is one
turn for each step that is left; the arguments are the words from `args` on, and a string is what
is in memory before the next NUL.
-/
import Linux012.Numerals

open Numerals

namespace Printf

/-- The value of an `int`. -/
def int (n : ℤ) : ℤ := Int.bmod n (2 ^ 32)

/-! ### Loops that count down -/

/-- `n` is counted down before each of `k` characters, and once more after them. -/
def countDown (c : Char) : ℕ → ℤ → List Char × ℤ
  | 0, n => ([], int (n - 1))
  | k + 1, n =>
    let (s, n) := countDown c k (int (n - 1))
    (c :: s, n)

/-- `while (bound < n--) *str++ = c;` -/
def fill (c : Char) (bound n : ℤ) : List Char × ℤ := countDown c (n - bound).toNat n

/-- `while (--n > 0) *str++ = c;` -/
def fillDown (c : Char) (n : ℤ) : List Char × ℤ := countDown c (int (n - 1)).toNat n

/-! ### Numbers -/

/-- `while (is_digit(**s)) i = i*10 + *((*s)++) - '0';` -/
def skipAtoi : ℤ → List Char → ℤ × List Char
  | i, [] => (i, [])
  | i, c :: s =>
    if '0' ≤ c ∧ c ≤ '9' then skipAtoi (int (i * 10 + c.toNat - 48)) s else (i, c :: s)

structure Flags where
  zeropad : Bool := false
  sign : Bool := false
  plus : Bool := false
  space : Bool := false
  left : Bool := false
  special : Bool := false
  small : Bool := false
  deriving DecidableEq

/-- `while (num != 0) tmp[i++] = digits[do_div(num, base)];`, as long as there is room in `tmp`. -/
def doDiv (small : Bool) (base : ℕ) : ℕ → ℕ → List Char
  | 0, _ => []
  | room + 1, num =>
    if num = 0 then [] else digitChar small (num % base) :: doDiv small base room (num / base)

/-- The end of `number`: the padding, the sign, the prefix `pre` and the digits in `tmp`. -/
def writeNumber (type : Flags) (c : Char) (sign pre tmp : List Char) (size precision : ℤ) :
    List Char :=
  let (spaces, size) := if ¬ (type.zeropad ∨ type.left) then fill ' ' 0 size else ([], size)
  let (pad, size) := if ¬ type.left then fill c 0 size else ([], size)
  let (zeros, _) := fill '0' tmp.length precision
  let (rest, _) := fill ' ' 0 size
  spaces ++ sign ++ pre ++ pad ++ zeros ++ tmp.reverse ++ rest

/-- What is written; none for a null pointer. -/
def number (num : BitVec 32) (base : ℕ) (size precision : ℤ) (type : Flags) : Option (List Char) :=
  let type := if type.left then { type with zeropad := false } else type
  if base < 2 ∨ 36 < base then none
  else
    let c := if type.zeropad then '0' else ' '
    let (sign, num) :=
      if type.sign ∧ num.msb then (['-'], -num)
      else (if type.plus then ['+'] else if type.space then [' '] else [], num)
    let size := if sign ≠ [] then int (size - 1) else size
    let size :=
      if type.special then
        if base = 16 then int (size - 2) else if base = 8 then int (size - 1) else size
      else size
    let tmp := if num = 0 then ['0'] else doDiv type.small base 36 num.toNat
    let i : ℤ := tmp.length
    let precision := if precision < i then i else precision
    let size := int (size - precision)
    let pre :=
      if type.special then
        if base = 8 then ['0'] else if base = 16 then ['0', digitChar type.small 33] else []
      else []
    some (writeNumber type c sign pre tmp size precision)

/-! ### Formats -/

/-- The output so far, how many arguments are taken, and what is stored at pointers. -/
structure Out where
  str : List Char
  args : ℕ
  stores : List (BitVec 32 × ℤ)
  deriving DecidableEq

/-- Characters are written, and an argument is taken for them. -/
def Out.put (out : Out) (s : List Char) : Out :=
  { out with str := out.str ++ s, args := out.args + 1 }

def scanFlags (flags : Flags) : List Char → Flags × List Char
  | '-' :: fmt => scanFlags { flags with left := true } fmt
  | '+' :: fmt => scanFlags { flags with plus := true } fmt
  | ' ' :: fmt => scanFlags { flags with space := true } fmt
  | '#' :: fmt => scanFlags { flags with special := true } fmt
  | '0' :: fmt => scanFlags { flags with zeropad := true } fmt
  | fmt => (flags, fmt)

/-- A number in the format: -1 when there is none. -/
def literal (fmt : List Char) : ℤ × List Char :=
  match fmt with
  | [] => (-1, [])
  | c :: _ => if '0' ≤ c ∧ c ≤ '9' then skipAtoi 0 fmt else (-1, fmt)

/-- The conversion qualifier, which does not matter. -/
def qualifier : List Char → List Char
  | 'h' :: fmt => fmt
  | 'l' :: fmt => fmt
  | 'L' :: fmt => fmt
  | fmt => fmt

section

variable (args : ℕ → BitVec 32) (strings : BitVec 32 → List Char)

def fieldWidth (flags : Flags) (k : ℕ) : List Char → ℤ × Flags × ℕ × List Char
  | '*' :: fmt =>
    let width := (args k).toInt
    if width < 0 then (int (-width), { flags with left := true }, k + 1, fmt)
    else (width, flags, k + 1, fmt)
  | fmt =>
    let (width, fmt) := literal fmt
    (width, flags, k, fmt)

def precision (k : ℕ) : List Char → ℤ × ℕ × List Char
  | '.' :: '*' :: fmt => (max (args k).toInt 0, k + 1, fmt)
  | '.' :: fmt =>
    let (precision, fmt) := literal fmt
    (max precision 0, k, fmt)
  | fmt => (-1, k, fmt)

/-- The switch on the conversion. -/
def convert (flags : Flags) (width precision : ℤ) (c : Char) (out : Out) : Option Out :=
  let arg := args out.args
  match c with
  | 'c' =>
    let (left, width) := if flags.left then ([], width) else fillDown ' ' width
    let (right, _) := fillDown ' ' width
    some (out.put (left ++ [Char.ofNat (arg.toNat % 256)] ++ right))
  | 's' =>
    let s := strings arg
    let len := int s.length
    let len := if precision < 0 then len else if precision < len then precision else len
    let (left, width) := if flags.left then ([], width) else fill ' ' len width
    let (right, _) := fill ' ' len width
    some (out.put (left ++ s.take len.toNat ++ right))
  | 'o' => (number arg 8 width precision flags).map out.put
  | 'p' =>
    if width = -1 then (number arg 16 8 precision { flags with zeropad := true }).map out.put
    else (number arg 16 width precision flags).map out.put
  | 'x' => (number arg 16 width precision { flags with small := true }).map out.put
  | 'X' => (number arg 16 width precision flags).map out.put
  | 'd' => (number arg 10 width precision { flags with sign := true }).map out.put
  | 'i' => (number arg 10 width precision { flags with sign := true }).map out.put
  | 'u' => (number arg 10 width precision flags).map out.put
  | 'n' =>
    some { out with args := out.args + 1, stores := out.stores ++ [(arg, int out.str.length)] }
  | '%' => some { out with str := out.str ++ ['%'] }
  | c => some { out with str := out.str ++ ['%', c] }

/-- The loop over the format, with `n` turns at most. -/
def formatLoop : ℕ → List Char → Out → Option Out
  | 0, _, out => some out
  | _ + 1, [], out => some out
  | n + 1, c :: fmt, out =>
    if c ≠ '%' then formatLoop n fmt { out with str := out.str ++ [c] }
    else
      let (flags, fmt) := scanFlags {} fmt
      let (width, flags, k, fmt) := fieldWidth args flags out.args fmt
      let (precision, k, fmt) := precision args k fmt
      let out := { out with args := k }
      match qualifier fmt with
      | [] => some { out with str := out.str ++ ['%'] }
      | c :: fmt => do
        let out ← convert args strings flags width precision c out
        formatLoop n fmt out

/-- The output with its NUL, and the value that is returned. -/
def vsprintf (fmt : List Char) : Option (Out × ℤ) :=
  (formatLoop args strings fmt.length fmt ⟨[], 0, []⟩).map fun out =>
    ({ out with str := out.str ++ [Char.ofNat 0] }, int out.str.length)

end

end Printf
