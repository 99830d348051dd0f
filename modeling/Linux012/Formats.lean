/-
Formats and what is printed for them (`vsprintf` of kernel/vsprintf.c).

* `Spec`, `Piece` — conversions as they are written in a format, and formats;
* `Fits` — no number in the format or in a `*` is too large;
* `IntegerField`, `TextField`, `Yields` — what is printed is meant to be;
* `fieldWidth_text`, `precision_text` — a conversion is read as it is written;
* `formats` — every piece of a format is printed as it is meant to be, and takes its arguments.
-/
import Linux012.FormattedNumbers
import Linux012.Words

open Numerals Words

namespace Printf

/-! ### Formats -/

inductive Flag where
  | minus
  | plus
  | space
  | special
  | zero
  deriving DecidableEq

def Flag.char : Flag → Char
  | .minus => '-'
  | .plus => '+'
  | .space => ' '
  | .special => '#'
  | .zero => '0'

def digitsOf (ds : List (Fin 10)) : List Char := ds.map fun d : Fin 10 => digitChar false d

/-- The number that is meant by digits. -/
def decimal (n : ℕ) (ds : List (Fin 10)) : ℕ := ds.foldl (fun n (d : Fin 10) => n * 10 + d) n

/-- A width does not begin with a zero, which is a flag. -/
inductive Width where
  | absent
  | literal (first : Fin 10) (rest : List (Fin 10)) (nonzero : first ≠ 0)
  | star

/-- A precision without digits is zero. -/
inductive Precision where
  | absent
  | literal (digits : List (Fin 10))
  | star

inductive Qualifier where
  | h
  | l
  | L

inductive Conversion where
  | d
  | i
  | u
  | o
  | x
  | X
  | c
  | s
  deriving DecidableEq

/-- `%`, flags, width, precision, qualifier and conversion. -/
structure Spec where
  flags : List Flag
  width : Width
  precision : Precision
  qualifier : Option Qualifier
  conversion : Conversion

inductive Piece where
  | text (c : Char) (plain : c ≠ '%')
  | percent
  | spec (s : Spec)

def Width.text : Width → List Char
  | .absent => []
  | .literal first rest _ => digitsOf (first :: rest)
  | .star => ['*']

def Precision.text : Precision → List Char
  | .absent => []
  | .literal digits => '.' :: digitsOf digits
  | .star => ['.', '*']

def Qualifier.char : Qualifier → Char
  | .h => 'h'
  | .l => 'l'
  | .L => 'L'

def Conversion.char : Conversion → Char
  | .d => 'd'
  | .i => 'i'
  | .u => 'u'
  | .o => 'o'
  | .x => 'x'
  | .X => 'X'
  | .c => 'c'
  | .s => 's'

def Spec.text (s : Spec) : List Char :=
  '%' :: (s.flags.map Flag.char ++ (s.width.text ++ (s.precision.text ++
    ((s.qualifier.map Qualifier.char).toList ++ [s.conversion.char]))))

def Piece.chars : Piece → List Char
  | .text c _ => [c]
  | .percent => ['%', '%']
  | .spec s => s.text

def render (ps : List Piece) : List Char := ps.flatMap Piece.chars

/-! ### What is asked for -/

def Width.stars : Width → ℕ
  | .star => 1
  | _ => 0

def Precision.stars : Precision → ℕ
  | .star => 1
  | _ => 0

/-- One argument for each star and for the conversion. -/
def Piece.arity : Piece → ℕ
  | .spec s => s.width.stars + s.precision.stars + 1
  | _ => 0

section

variable (args : ℕ → BitVec 32) (strings : BitVec 32 → List Char) (k : ℕ)

/-- The width; a negative star is a width and a flag. -/
def Width.amount : Width → Option ℕ
  | .absent => none
  | .literal first rest _ => some (decimal 0 (first :: rest))
  | .star => some (args k).toInt.natAbs

def Width.left : Width → Bool
  | .star => (args k).toInt < 0
  | _ => false

/-- The precision; a negative star is zero. -/
def Precision.amount : Precision → Option ℕ
  | .absent => none
  | .literal digits => some (decimal 0 digits)
  | .star => some (args k).toInt.toNat

namespace Spec

variable (s : Spec)

def fieldWidth : ℕ := (s.width.amount args k).getD 0

def left : Bool := decide (.minus ∈ s.flags) || s.width.left args k

def precisionAmount : Option ℕ := s.precision.amount args (k + s.width.stars)

/-- The argument that is converted. -/
def arg : BitVec 32 := args (k + s.width.stars + s.precision.stars)

end Spec

/-- Numbers are below 2³¹, and there is room for sign, prefix and digits as well. -/
structure Spec.Fits (s : Spec) : Prop where
  width : s.fieldWidth args k < 2 ^ 31
  precision : ∀ p ∈ s.precisionAmount args k,
    if s.conversion = .c ∨ s.conversion = .s then p < 2 ^ 31 else p ≤ 2 ^ 31 - 6
  string : s.conversion = .s → (strings (s.arg args k)).length < 2 ^ 31

section Fields

variable (s : Spec) (w : ℕ) (left : Bool)

def Conversion.base : Conversion → ℕ
  | .o => 8
  | .x => 16
  | .X => 16
  | _ => 10

/-- Whether the argument may be negative. -/
def Conversion.signed (conv : Conversion) : Bool := decide (conv = .d ∨ conv = .i)

def Conversion.value (conv : Conversion) (arg : BitVec 32) : ℤ :=
  if conv.signed then arg.toInt else arg.toNat

namespace Spec

def sign (arg : BitVec 32) : List Char :=
  signText (s.conversion.signed && arg.msb) (decide (.plus ∈ s.flags)) (decide (.space ∈ s.flags))

def pre : List Char :=
  prefixText (decide (.special ∈ s.flags)) (decide (s.conversion = .x)) s.conversion.base

def digits (p : ℕ) (arg : BitVec 32) : List Char :=
  digitsText (decide (s.conversion = .x)) s.conversion.base p (s.conversion.value arg).natAbs

end Spec

/-- The field of a number: as wide as it is asked for, padded where it is to be, with `p` digits or
more, and with the number to be read in it. -/
structure IntegerField (p : ℕ) (arg : BitVec 32) (out : List Char) : Prop where
  wide : w ≤ out.length
  exact : (s.sign arg ++ s.pre ++ s.digits p arg).length ≤ w → out.length = w
  padded : out = integerText (s.sign arg) s.pre (s.digits p arg) w left (decide (.zero ∈ s.flags))
  precise : p ≤ (s.digits p arg).length
  reads : readInt s.conversion.base out = some (s.conversion.value arg)

/-- A text of its own length, or padded to the width. -/
def padded (t : List Char) : List Char :=
  if left then t ++ List.replicate (w - t.length) ' ' else List.replicate (w - t.length) ' ' ++ t

/-- The field of a string: as much of it as the precision allows. -/
structure StringField (string : List Char) (p : Option ℕ) (out : List Char) : Prop where
  copied : ∃ t, t <+: string ∧ (∀ p' ∈ p, t.length = min p' string.length) ∧
    (p = none → t = string) ∧ out = padded w left t

end Fields

/-- What a piece is printed as. -/
def Piece.Prints : Piece → List Char → Prop
  | .text c _, out => out = [c]
  | .percent, out => out = ['%']
  | .spec s, out =>
    let w := s.fieldWidth args k
    let p := s.precisionAmount args k
    let left := s.left args k
    let arg := s.arg args k
    match s.conversion with
    | .c => out = padded w left [Char.ofNat (arg.toNat % 256)]
    | .s => StringField w left (strings arg) p out
    | _ => IntegerField s w left (p.getD 0) arg out

/-- The pieces one after the other, with the arguments from `k` on. -/
inductive Yields : ℕ → List Piece → List Char → Prop
  | nil (k : ℕ) : Yields k [] []
  | cons {k : ℕ} {p : Piece} {ps : List Piece} {out rest : List Char}
      (first : p.Prints args strings k out) (others : Yields (k + p.arity) ps rest) :
      Yields k (p :: ps) (out ++ rest)

/-- All conversions fit, when the arguments from `k` on are taken. -/
def Fits (k : ℕ) : List Piece → Prop
  | [] => True
  | .spec s :: ps => s.Fits args strings k ∧ Fits (k + (Piece.spec s).arity) ps
  | _ :: ps => Fits k ps

end

/-! ### Formats are read as they are written -/

def Flag.set (flags : Flags) : Flag → Flags
  | .minus => { flags with left := true }
  | .plus => { flags with plus := true }
  | .space => { flags with space := true }
  | .special => { flags with special := true }
  | .zero => { flags with zeropad := true }

theorem foldl_set (fs : List Flag) (flags : Flags) : fs.foldl Flag.set flags =
    { flags with
      left := flags.left || decide (.minus ∈ fs)
      plus := flags.plus || decide (.plus ∈ fs)
      space := flags.space || decide (.space ∈ fs)
      special := flags.special || decide (.special ∈ fs)
      zeropad := flags.zeropad || decide (.zero ∈ fs) } := by
  induction fs generalizing flags with
  | nil => simp
  | cons f fs ih =>
    rw [List.foldl_cons, ih]
    cases f <;> simp [Flag.set]

def isFlag (c : Char) : Bool := c = '-' || c = '+' || c = ' ' || c = '#' || c = '0'

theorem scanFlags_chars (fs : List Flag) (flags : Flags) {s : List Char}
    (hs : ∀ c ∈ s.head?, isFlag c = false) :
    scanFlags flags (fs.map Flag.char ++ s) = (fs.foldl Flag.set flags, s) := by
  induction fs generalizing flags with
  | nil =>
    change scanFlags flags s = (flags, s)
    rw [scanFlags.eq_def]
    split
    case h_6 => rfl
    all_goals exact absurd (hs _ rfl) (by decide)
  | cons f fs ih =>
    cases f <;> exact ih _

theorem le_decimal (n : ℕ) (ds : List (Fin 10)) : n ≤ decimal n ds := by
  induction ds generalizing n with
  | nil => exact le_rfl
  | cons d ds ih =>
    calc n ≤ n * 10 + d := by omega
      _ ≤ decimal n (d :: ds) := ih _

theorem digitChar_bounds (d : Fin 10) :
    ('0' ≤ digitChar false d ∧ digitChar false d ≤ '9') ∧ (digitChar false d).toNat = 48 + d := by
  revert d
  decide

theorem skipAtoi_digits (n : ℕ) (ds : List (Fin 10)) {s : List Char}
    (hs : ∀ c ∈ s.head?, ¬ ('0' ≤ c ∧ c ≤ '9')) (hbound : decimal n ds < 2 ^ 31) :
    skipAtoi n (digitsOf ds ++ s) = ((decimal n ds : ℤ), s) := by
  induction ds generalizing n with
  | nil =>
    cases s with
    | nil => rfl
    | cons c s => exact if_neg (hs c rfl)
  | cons d ds ih =>
    have hle : n * 10 + d ≤ decimal n (d :: ds) := le_decimal _ ds
    obtain ⟨hdigit, hvalue⟩ := digitChar_bounds d
    have hnext : int ((n : ℤ) * 10 + (digitChar false d).toNat - 48) = (n * 10 + d : ℕ) := by
      rw [hvalue, int_eq (by omega)]
      push_cast
      ring
    have hcons : digitsOf (d :: ds) ++ s = digitChar false d :: (digitsOf ds ++ s) := rfl
    rw [hcons, skipAtoi, if_pos hdigit, hnext]
    exact ih _ hbound

/-- A character that a width or a precision may go on with. -/
def goesOn (c : Char) : Bool := ('0' ≤ c ∧ c ≤ '9') || c = '*'

theorem not_digit {c : Char} (h : goesOn c = false) : ¬ ('0' ≤ c ∧ c ≤ '9') := by
  intro hdigit
  simp [goesOn, hdigit] at h

theorem literal_none {s : List Char} (hs : ∀ c ∈ s.head?, goesOn c = false) :
    literal s = (-1, s) := by
  cases s with
  | nil => rfl
  | cons c s => exact if_neg (not_digit (hs c rfl))

theorem literal_digits (d : Fin 10) (ds : List (Fin 10)) {s : List Char}
    (hs : ∀ c ∈ s.head?, goesOn c = false) (hbound : decimal 0 (d :: ds) < 2 ^ 31) :
    literal (digitsOf (d :: ds) ++ s) = ((decimal 0 (d :: ds) : ℤ), s) := by
  have hread := skipAtoi_digits 0 (d :: ds) (fun c hc => not_digit (hs c hc)) hbound
  exact (if_pos (digitChar_bounds d).1).trans hread

section

variable (args : ℕ → BitVec 32) (k : ℕ)

/-- An `int` that stands for an amount; -1 when there is none. -/
structure Stands (n : ℤ) (amount : Option ℕ) : Prop where
  low : -1 ≤ n
  high : n < 2 ^ 31
  none : n < 0 ↔ amount = none
  toNat : n.toNat = amount.getD 0

theorem stands_some {n : ℕ} (h : n < 2 ^ 31) : Stands n (some n) :=
  ⟨by omega, by exact_mod_cast h, iff_of_false (by omega) nofun, rfl⟩

theorem stands_none : Stands (-1) none := ⟨by decide, by decide, by decide, rfl⟩

theorem fieldWidth_text (w : Width) (flags : Flags) {s : List Char}
    (hs : ∀ c ∈ s.head?, goesOn c = false) (hbound : ∀ n ∈ w.amount args k, n < 2 ^ 31) :
    ∃ n, fieldWidth args flags k (w.text ++ s) =
      (n, { flags with left := flags.left || w.left args k }, k + w.stars, s) ∧
      Stands n (w.amount args k) := by
  have hliteral : ∀ s : List Char, s.head? ≠ some '*' → fieldWidth args flags k s =
      ((literal s).1, flags, k, (literal s).2) := by
    intro s hne
    rw [fieldWidth.eq_def]
    split
    case h_1 => exact absurd rfl hne
    case h_2 => rfl
  cases w with
  | absent =>
    have hne : s.head? ≠ some '*' := fun h => absurd (hs '*' h) (by decide)
    refine ⟨-1, ?_, stands_none⟩
    change fieldWidth args flags k s = _
    rw [hliteral s hne, literal_none hs]
    simp [Width.left, Width.stars]
  | literal first rest nonzero =>
    have hdigit := (digitChar_bounds first).1
    have hne : (digitsOf (first :: rest) ++ s).head? ≠ some '*' := by
      intro h
      have hchar : digitChar false first = '*' := Option.some.inj h
      rw [hchar] at hdigit
      exact absurd hdigit (by decide)
    refine ⟨_, ?_, stands_some (hbound _ rfl)⟩
    rw [Width.text, hliteral _ hne, literal_digits first rest hs (hbound _ rfl)]
    simp [Width.left, Width.stars]
  | star =>
    have hlt : (args k).toInt.natAbs < 2 ^ 31 := hbound _ rfl
    refine ⟨_, ?_, stands_some hlt⟩
    change (if (args k).toInt < 0 then _ else _) = _
    by_cases hneg : (args k).toInt < 0
    · have habs : int (-(args k).toInt) = (args k).toInt.natAbs := by
        rw [int_eq (by omega)]
        omega
      rw [if_pos hneg, habs]
      simp [Width.left, Width.stars, hneg]
    · have habs : ((args k).toInt.natAbs : ℤ) = (args k).toInt := by omega
      rw [if_neg hneg, habs]
      simp [Width.left, Width.stars, hneg]

theorem precision_text (pr : Precision) {s : List Char}
    (hs : ∀ c ∈ s.head?, goesOn c = false ∧ c ≠ '.')
    (hbound : ∀ p ∈ pr.amount args k, p < 2 ^ 31) :
    ∃ n, precision args k (pr.text ++ s) = (n, k + pr.stars, s) ∧ Stands n (pr.amount args k) := by
  have hdot : ∀ s : List Char, s.head? ≠ some '*' → precision args k ('.' :: s) =
      (max (literal s).1 0, k, (literal s).2) := by
    intro s hne
    rw [precision.eq_def]
    split
    case h_1 h => exact absurd (by rw [List.tail_eq_of_cons_eq h]; rfl) hne
    case h_2 h => rw [List.tail_eq_of_cons_eq h]
    case h_3 h => exact absurd rfl (h s)
  cases pr with
  | absent =>
    refine ⟨-1, ?_, stands_none⟩
    change precision args k s = _
    rw [precision.eq_def]
    split
    case h_1 => exact absurd rfl (hs '.' rfl).2
    case h_2 => exact absurd rfl (hs '.' rfl).2
    case h_3 => rfl
  | literal digits =>
    refine ⟨_, ?_, stands_some (hbound _ rfl)⟩
    cases digits with
    | nil =>
      have hne : s.head? ≠ some '*' := fun h => absurd (hs '*' h).1 (by decide)
      change precision args k ('.' :: s) = _
      rw [hdot s hne, literal_none fun c hc => (hs c hc).1]
      rfl
    | cons d ds =>
      have hdigit := (digitChar_bounds d).1
      have hne : (digitsOf (d :: ds) ++ s).head? ≠ some '*' := by
        intro h
        have hchar : digitChar false d = '*' := Option.some.inj h
        rw [hchar] at hdigit
        exact absurd hdigit (by decide)
      change precision args k ('.' :: (digitsOf (d :: ds) ++ s)) = _
      rw [hdot _ hne, literal_digits d ds (fun c hc => (hs c hc).1) (hbound _ rfl)]
      simp [Precision.stars]
  | star =>
    have hlt : (args k).toInt.toNat < 2 ^ 31 := hbound _ rfl
    refine ⟨_, ?_, stands_some hlt⟩
    have hmax : ((args k).toInt.toNat : ℤ) = max (args k).toInt 0 := Int.toNat_eq_max _
    rw [hmax]
    rfl

theorem qualifier_text (q : Option Qualifier) (conv : Conversion) (s : List Char) :
    qualifier ((q.map Qualifier.char).toList ++ ([conv.char] ++ s)) = conv.char :: s := by
  cases q with
  | none => cases conv <;> rfl
  | some q => cases q <;> rfl

/-! ### Conversions -/

variable (s : Spec)

/-- The flags, once the width is read. -/
def Spec.type : Flags :=
  { zeropad := decide (.zero ∈ s.flags)
    plus := decide (.plus ∈ s.flags)
    space := decide (.space ∈ s.flags)
    left := s.left args k
    special := decide (.special ∈ s.flags) }

/-- The number that is printed is the one that is asked for. -/
theorem number_field (arg : BitVec 32) {n p : ℤ} {w q : Option ℕ} (hn : Stands n w)
    (hp : Stands p q) (hq : p ≤ 2 ^ 31 - 6) :
    ∃ out, number arg s.conversion.base n p
      { s.type args k with
        sign := s.conversion.signed
        small := decide (s.conversion = .x) } = some out ∧
      IntegerField s (w.getD 0) (s.left args k) (q.getD 0) arg out := by
  have hb : s.conversion.base = 8 ∨ s.conversion.base = 10 ∨ s.conversion.base = 16 := by
    cases s.conversion <;> decide
  have hmagnitude : (if s.conversion.signed && arg.msb then -arg else arg).toNat =
      (s.conversion.value arg).natAbs := by
    rw [Conversion.value]
    cases s.conversion.signed with
    | false => simp
    | true => simpa using magnitude_natAbs arg
  have hvalue : (if s.conversion.signed && arg.msb then
      -((s.conversion.value arg).natAbs : ℤ) else (s.conversion.value arg).natAbs) =
      s.conversion.value arg := by
    rw [Conversion.value]
    cases s.conversion.signed with
    | false => simp
    | true =>
      simp only [Bool.true_and, if_true, BitVec.msb_eq_toInt, decide_eq_true_iff]
      split <;> omega
  refine ⟨_, number_eq hb ⟨hn.low, hn.high⟩ ⟨hp.low, hq⟩, ?_⟩
  rw [hmagnitude, hn.toNat, hp.toNat]
  refine ⟨?_, ?_, rfl, ?_, ?_⟩
  · rw [integerText_length]
    exact Nat.le_max_left _ _
  · intro hfit
    rw [integerText_length]
    rw [List.length_append, List.length_append] at hfit
    exact Nat.max_eq_left hfit
  · rw [Spec.digits, digitsText_length]
    exact Nat.le_max_left _ _
  · rw [readInt_integerText hb, hvalue]

/-- A character counts as one of the width. -/
theorem fillDown_eq (c : Char) {n : ℤ} (h : -2 ^ 31 < n ∧ n < 2 ^ 31) :
    fillDown c n = (List.replicate (n - 1).toNat c, int (n - (n - 1).toNat - 1)) := by
  rw [fillDown, countDown_eq, int_eq (n := n - 1) (by omega)]

theorem char_field {n : ℤ} {w : Option ℕ} (hn : Stands n w) (flags : Flags) (c : Char) :
    (let (before, width) := if flags.left then ([], n) else fillDown ' ' n
     let (after, _) := fillDown ' ' width
     before ++ [c] ++ after) = padded (w.getD 0) flags.left [c] := by
  have hlow := hn.low
  have hhigh := hn.high
  have hcount : (n - 1).toNat = w.getD 0 - [c].length := by
    rw [← hn.toNat, List.length_singleton]
    omega
  have hfirst := fillDown_eq ' ' (n := n) (by omega)
  rw [hcount] at hfirst
  cases hl : flags.left with
  | true => simp [hfirst, padded]
  | false =>
    -- the counter is done when the character is written
    have hrest : int (n - ((w.getD 0 - [c].length : ℕ) : ℤ) - 1) = min n 1 - 1 := by
      rw [← hcount, int_eq (by omega)]
      omega
    have hsecond := fillDown_eq ' ' (n := min n 1 - 1) (by omega)
    rw [Int.toNat_eq_zero.mpr (show min n 1 - 1 - 1 ≤ 0 by omega)] at hsecond
    rw [hrest] at hfirst
    simp [hfirst, hsecond, padded]

theorem string_field {n : ℤ} {w : Option ℕ} (hn : Stands n w) (flags : Flags) (t : List Char)
    (ht : t.length < 2 ^ 31) :
    (let (before, width) := if flags.left then ([], n) else fill ' ' t.length n
     let (after, _) := fill ' ' t.length width
     before ++ t ++ after) = padded (w.getD 0) flags.left t := by
  have hlow := hn.low
  have hhigh := hn.high
  have hcount : (n - t.length).toNat = w.getD 0 - t.length := by
    rw [← hn.toNat]
    omega
  have hfirst := fill_eq ' ' t.length n
  rw [hcount] at hfirst
  cases hl : flags.left with
  | true => simp [hfirst, padded]
  | false =>
    have hrest : int (n - ((w.getD 0 - t.length : ℕ) : ℤ) - 1) = min n t.length - 1 := by
      rw [← hcount, int_eq (by omega)]
      omega
    have hsecond := fill_eq ' ' t.length (min n t.length - 1)
    rw [Int.toNat_eq_zero.mpr (show min n (t.length : ℤ) - 1 - t.length ≤ 0 by omega)] at hsecond
    rw [hrest] at hfirst
    simp [hfirst, hsecond, padded]

/-- As much of a string as the precision allows. -/
theorem string_cut (string : List Char) {p : ℤ} {q : Option ℕ} (hp : Stands p q) :
    ∃ t, t <+: string ∧ (∀ m ∈ q, t.length = min m string.length) ∧ (q = none → t = string) ∧
      (if p < 0 then (string.length : ℤ) else if p < string.length then p else string.length) =
        t.length := by
  cases q with
  | none =>
    refine ⟨string, List.prefix_rfl, nofun, fun _ => rfl, ?_⟩
    rw [if_pos (hp.none.mpr rfl)]
  | some m =>
    have hpos : ¬ p < 0 := fun h => nomatch hp.none.mp h
    have hm : p.toNat = m := hp.toNat
    refine ⟨string.take m, List.take_prefix m string, ?_, nofun, ?_⟩
    · intro m' hm'
      rw [List.length_take, Option.mem_some.mp hm']
    · rw [if_neg hpos, List.length_take]
      split <;> omega

variable {args strings k s}

/-- All integer conversions are the same but for the base and two flags. -/
theorem convert_integer (hc : s.conversion ≠ .c) (hs : s.conversion ≠ .s) (n p : ℤ) (out : Out) :
    convert args strings (s.type args k) n p s.conversion.char out =
      (number (args out.args) s.conversion.base n p
        { s.type args k with
          sign := s.conversion.signed
          small := decide (s.conversion = .x) }).map out.put := by
  obtain ⟨flags, width, precision, qualifier, conversion⟩ := s
  cases conversion with
  | c => exact absurd rfl hc
  | s => exact absurd rfl hs
  | _ => rfl

theorem prints_integer (hc : s.conversion ≠ .c) (hs : s.conversion ≠ .s) {text : List Char}
    (h : IntegerField s (s.fieldWidth args k) (s.left args k) ((s.precisionAmount args k).getD 0)
      (s.arg args k) text) : (Piece.spec s).Prints args strings k text := by
  obtain ⟨flags, width, precision, qualifier, conversion⟩ := s
  cases conversion with
  | c => exact absurd rfl hc
  | s => exact absurd rfl hs
  | _ => exact h

theorem convert_string {flags : Flags} {width precision len : ℤ} {out : Out}
    (string : List Char) (hstring : strings (args out.args) = string)
    (hlen : (if precision < 0 then int string.length
      else if precision < int string.length then precision else int string.length) = len) :
    convert args strings flags width precision 's' out =
      some (out.put (
        let (before, width) := if flags.left then ([], width) else fill ' ' len width
        let (after, _) := fill ' ' len width
        before ++ string.take len.toNat ++ after)) := by
  subst hlen hstring
  rfl

theorem convert_spec (hfits : s.Fits args strings k) {n p : ℤ}
    (hn : Stands n (s.width.amount args k)) (hp : Stands p (s.precisionAmount args k))
    (str : List Char) (stores : List (BitVec 32 × ℤ)) :
    let out : Out := ⟨str, k + s.width.stars + s.precision.stars, stores⟩
    ∃ text, convert args strings (s.type args k) n p s.conversion.char out = some (out.put text) ∧
      (Piece.spec s).Prints args strings k text := by
  intro out
  by_cases hc : s.conversion = .c
  · have hfield := char_field hn (s.type args k) (Char.ofNat ((s.arg args k).toNat % 256))
    refine ⟨padded (s.fieldWidth args k) (s.left args k)
      [Char.ofNat ((s.arg args k).toNat % 256)], ?_, ?_⟩
    · rw [hc]
      exact congrArg (fun t => some (out.put t)) hfield
    · rw [Piece.Prints, hc]
  by_cases hs : s.conversion = .s
  · have hlong := hfits.string hs
    obtain ⟨t, hpre, hsome, hnone, hlen⟩ := string_cut (strings (s.arg args k)) hp
    have hfield := string_field hn (s.type args k) t (hpre.length_le.trans_lt hlong)
    refine ⟨padded (s.fieldWidth args k) (s.left args k) t, ?_, ?_⟩
    · have hint : int (strings (s.arg args k)).length = (strings (s.arg args k)).length :=
        int_eq ⟨by omega, by exact_mod_cast hlong⟩
      have htake : (strings (s.arg args k)).take (t.length : ℤ).toNat = t :=
        (List.prefix_iff_eq_take.mp hpre).symm
      rw [hs]
      refine (convert_string (strings (s.arg args k)) rfl (hint.symm ▸ hlen)).trans ?_
      rw [htake]
      exact congrArg (fun t => some (out.put t)) hfield
    · rw [Piece.Prints, hs]
      exact ⟨t, hpre, hsome, hnone, rfl⟩
  have hq : p ≤ 2 ^ 31 - 6 := by
    have hbound := hfits.precision
    have htoNat := hp.toNat
    cases hamount : s.precisionAmount args k with
    | none =>
      have hneg := hp.none.mpr hamount
      omega
    | some m =>
      have hm := hbound m hamount
      rw [if_neg (by simp [hc, hs])] at hm
      rw [hamount, Option.getD_some] at htoNat
      omega
  obtain ⟨text, htext, hfield⟩ := number_field args k s (s.arg args k) hn hp hq
  refine ⟨text, ?_, prints_integer hc hs hfield⟩
  rw [convert_integer hc hs]
  exact congrArg (Option.map out.put) htext

/-! ### The loop over the format -/

theorem head_conversion (q : Option Qualifier) (conv : Conversion) (rest : List Char) :
    ∀ c ∈ ((q.map Qualifier.char).toList ++ ([conv.char] ++ rest)).head?,
      isFlag c = false ∧ goesOn c = false ∧ c ≠ '.' := by
  intro c hc
  cases q with
  | none =>
    obtain rfl : conv.char = c := Option.some.inj hc
    cases conv <;> decide
  | some q =>
    obtain rfl : q.char = c := Option.some.inj hc
    cases q <;> decide

theorem head_precision (pr : Precision) (q : Option Qualifier) (conv : Conversion)
    (rest : List Char) :
    ∀ c ∈ (pr.text ++ ((q.map Qualifier.char).toList ++ ([conv.char] ++ rest))).head?,
      isFlag c = false ∧ goesOn c = false := by
  intro c hc
  cases pr with
  | absent =>
    obtain ⟨hflag, hgoes, -⟩ := head_conversion q conv rest c hc
    exact ⟨hflag, hgoes⟩
  | _ =>
    obtain rfl : '.' = c := Option.some.inj hc
    decide

theorem head_width (w : Width) (pr : Precision) (q : Option Qualifier) (conv : Conversion)
    (rest : List Char) :
    ∀ c ∈ (w.text ++ (pr.text ++ ((q.map Qualifier.char).toList ++ ([conv.char] ++ rest)))).head?,
      isFlag c = false := by
  intro c hc
  cases w with
  | absent => exact (head_precision pr q conv rest c hc).1
  | literal first digits nonzero =>
    have hall : ∀ d : Fin 10, d ≠ 0 → isFlag (digitChar false d) = false := by decide
    obtain rfl : digitChar false first = c := Option.some.inj hc
    exact hall first nonzero
  | star =>
    obtain rfl : '*' = c := Option.some.inj hc
    decide

/-- A conversion takes one turn. -/
theorem formatLoop_spec {out : Out} (hfits : s.Fits args strings out.args) (n : ℕ)
    (rest : List Char) :
    ∃ text, formatLoop args strings (n + 1) (s.text ++ rest) out =
      formatLoop args strings n rest
        ⟨out.str ++ text, out.args + (Piece.spec s).arity, out.stores⟩ ∧
      (Piece.spec s).Prints args strings out.args text := by
  have hassoc : s.text ++ rest = '%' :: (s.flags.map Flag.char ++ (s.width.text ++
      (s.precision.text ++ ((s.qualifier.map Qualifier.char).toList ++
        ([s.conversion.char] ++ rest))))) := by
    simp [Spec.text]
  have hflags := scanFlags_chars s.flags {}
    (head_width s.width s.precision s.qualifier s.conversion rest)
  have hwidth : ∀ m ∈ s.width.amount args out.args, m < 2 ^ 31 := by
    intro m hm
    have hlt := hfits.width
    rwa [Spec.fieldWidth, Option.mem_def.mp hm] at hlt
  have hprecision : ∀ p ∈ s.precision.amount args (out.args + s.width.stars), p < 2 ^ 31 := by
    intro p hp
    have hbound := hfits.precision p hp
    split at hbound <;> omega
  obtain ⟨w, hw, hstands⟩ := fieldWidth_text args out.args s.width
    (s.flags.foldl Flag.set {}) (fun c hc => (head_precision s.precision s.qualifier
      s.conversion rest c hc).2) hwidth
  obtain ⟨p, hp, hstands'⟩ := precision_text args (out.args + s.width.stars) s.precision
    (fun c hc => (head_conversion s.qualifier s.conversion rest c hc).2) hprecision
  obtain ⟨text, htext, hprints⟩ := convert_spec hfits hstands hstands' out.str out.stores
  refine ⟨text, ?_, hprints⟩
  have htype : { s.flags.foldl Flag.set {} with
      left := (s.flags.foldl Flag.set {}).left || s.width.left args out.args } =
      s.type args out.args := by
    rw [foldl_set]
    simp [Spec.type, Spec.left]
  rw [hassoc, formatLoop, if_neg (by decide), hflags]
  dsimp only
  rw [hw]
  dsimp only
  rw [hp]
  dsimp only
  rw [qualifier_text]
  dsimp only
  have harity : out.args + (Piece.spec s).arity =
      out.args + s.width.stars + s.precision.stars + 1 := by
    rw [Piece.arity]
    omega
  rw [htype, htext, harity]
  rfl

def arity (ps : List Piece) : ℕ := (ps.map Piece.arity).sum

/-- The whole format, with as many turns as it is long. -/
theorem formatLoop_pieces (ps : List Piece) (out : Out) (hfits : Fits args strings out.args ps)
    {n : ℕ} (hn : (render ps).length ≤ n) :
    ∃ text, formatLoop args strings n (render ps) out =
      some ⟨out.str ++ text, out.args + arity ps, out.stores⟩ ∧
      Yields args strings out.args ps text := by
  induction ps generalizing out n with
  | nil =>
    refine ⟨[], ?_, .nil _⟩
    rw [List.append_nil]
    cases n <;> rfl
  | cons p ps ih =>
    have hrender : render (p :: ps) = p.chars ++ render ps := rfl
    have harity : out.args + p.arity + arity ps = out.args + arity (p :: ps) := by
      rw [arity, arity, List.map_cons, List.sum_cons, Nat.add_assoc]
    rw [hrender, List.length_append] at hn
    rw [hrender, ← harity]
    -- one turn for the first piece, and the others after it
    have hturn : ∃ m text, (render ps).length ≤ m ∧ formatLoop args strings n
        (p.chars ++ render ps) out = formatLoop args strings m (render ps)
          ⟨out.str ++ text, out.args + p.arity, out.stores⟩ ∧ p.Prints args strings out.args text ∧
        Fits args strings (out.args + p.arity) ps := by
      have hpos : 1 ≤ p.chars.length := by
        cases p <;> exact Nat.succ_pos _
      obtain ⟨m, rfl⟩ := Nat.exists_eq_add_of_le' (show 1 ≤ n by omega)
      have hm : (render ps).length ≤ m := by omega
      cases p with
      | text c plain =>
        refine ⟨m, [c], hm, ?_, rfl, hfits⟩
        exact if_pos plain
      | percent =>
        refine ⟨m, ['%'], hm, ?_, rfl, hfits⟩
        rfl
      | spec s =>
        obtain ⟨text, htext, hprints⟩ := formatLoop_spec hfits.1 m (render ps)
        exact ⟨m, text, hm, htext, hprints, hfits.2⟩
    obtain ⟨m, text, hm, hloop, hprints, hrest⟩ := hturn
    obtain ⟨others, hothers, hyields⟩ :=
      ih ⟨out.str ++ text, out.args + p.arity, out.stores⟩ hrest hm
    refine ⟨text ++ others, ?_, .cons hprints hyields⟩
    rw [hloop, hothers, List.append_assoc]

end

/-- **Formatted output**: a format is printed piece by piece, each as it is meant to be, with one
argument for each conversion and each star; the length is returned, and a NUL follows. -/
theorem formats (args : ℕ → BitVec 32) (strings : BitVec 32 → List Char) (ps : List Piece)
    (h : Fits args strings 0 ps) :
    ∃ text, vsprintf args strings (render ps) =
      some (⟨text ++ [Char.ofNat 0], arity ps, []⟩, int text.length) ∧
      Yields args strings 0 ps text := by
  obtain ⟨text, hloop, hyields⟩ :=
    formatLoop_pieces ps ⟨[], 0, []⟩ h (Nat.le_refl _)
  refine ⟨text, ?_, hyields⟩
  rw [vsprintf, hloop, Option.map_some, List.nil_append, Nat.zero_add]

/-- `%08d|%-#*x` with -2³¹, 6 and 255. -/
def sample : List Piece :=
  [.spec ⟨[.zero], .literal 8 [] (by decide), .absent, none, .d⟩, .text '|' (by decide),
    .spec ⟨[.minus, .special], .star, .absent, none, .x⟩]

def sampleArgs : ℕ → BitVec 32
  | 0 => 0x80000000
  | 1 => 6
  | _ => 255

theorem formats_sample : ∃ text, vsprintf sampleArgs (fun _ => []) (render sample) =
    some (⟨text ++ [Char.ofNat 0], 3, []⟩, int text.length) ∧
      Yields sampleArgs (fun _ => []) 0 sample text := by
  refine formats sampleArgs (fun _ => []) sample ⟨⟨?_, ?_, ?_⟩, ⟨?_, ?_, ?_⟩, trivial⟩
  · decide
  · nofun
  · nofun
  · decide
  · nofun
  · nofun

/-- `%4294967301d`. -/
def wide : Spec :=
  ⟨[], .literal 4 [2, 9, 4, 9, 6, 7, 3, 0, 1] (by decide), .absent, none, .d⟩

/-- The width of 2³² + 5 is taken for 5. -/
theorem formats_wide : vsprintf (fun _ => 7) (fun _ => []) (render [.spec wide]) =
      some (⟨[' ', ' ', ' ', ' ', '7', Char.ofNat 0], 1, []⟩, 5) ∧
    ¬ ∃ text, vsprintf (fun _ => 7) (fun _ => []) (render [.spec wide]) =
      some (⟨text ++ [Char.ofNat 0], 1, []⟩, int text.length) ∧
      Yields (fun _ => 7) (fun _ => []) 0 [.spec wide] text := by
  have hrun : vsprintf (fun _ => 7) (fun _ => []) (render [.spec wide]) =
      some (⟨[' ', ' ', ' ', ' ', '7', Char.ofNat 0], 1, []⟩, 5) := by decide +kernel
  refine ⟨hrun, ?_⟩
  rintro ⟨text, htext, hyields⟩
  rw [hrun] at htext
  have hlength : 6 = text.length + 1 := by
    have hstr := congrArg (fun out : Option (Out × ℤ) => out.map fun o => o.1.str.length) htext
    rw [← List.length_singleton (a := Char.ofNat 0), ← List.length_append]
    exact Option.some.inj hstr
  cases hyields with
  | @cons _ _ _ out rest first others =>
    have hwide : 4294967301 ≤ out.length := IntegerField.wide first
    rw [List.length_append] at hlength
    omega

end Printf
