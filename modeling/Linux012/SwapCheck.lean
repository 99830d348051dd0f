/-
The check of the swap area (`init_swapping` of mm/swap.c), and where swap slots lie.

* `initSwapping` — the bits of the page that are examined, and the bit-map that is kept;
* `checkLoop_ends` — what the loop whose index jumps from 1 to the number of pages examines;
* `initSwapping_bitmap` — the bit-map is the one that the runs of `swapping` start with;
* `OnDevice` — no bit, word or task names a slot that is not on the device;
* `swap_check` — the check is exact, and every slot that is handed out later lies on the
  device, if and only if the bit behind the page is not examined.

Design notes: a page is the bytes from its address on, so what lies behind it is there too.
Here a loop that would not come to an end has no result.
-/
import Linux012.SwapSlots
import Linux012.Bytes
import Mathlib.Tactic.IntervalCases

namespace Mm

open Function (update)

/-! ### The code -/

/-- `bit`. -/
def bit (addr : Bytes) (nr : ℕ) : Bool := (addr (nr / 8)).toNat.testBit (nr % 8)

/-- `strncmp`: of the bytes of `ct` from `i` on with those of a string. -/
def strncmp (ct : Bytes) : List UInt8 → ℕ → ℤ
  | [], _ => 0
  | c :: cs, i =>
    if ct i = c then if c = 0 then 0 else strncmp ct cs (i + 1)
    else if (ct i).toInt8 < c.toInt8 then 1
    else -1

/-- `"SWAP-SPACE"`. -/
def swapSpace : List UInt8 := [83, 87, 65, 80, 45, 83, 80, 65, 67, 69]

/-- `memset(s + a, 0, n)`. -/
def clearBytes (s : Bytes) (a n : ℕ) : Bytes := fun i => if a ≤ i ∧ i < a + n then 0 else s i

/-- The loop over the bits that must be clear: those that are examined, and whether all are
clear. -/
def checkLoop (swapSize : ℕ) (bits : ℕ → Bool) : ℕ → ℕ → Option (List ℕ × Bool)
  | 0, _ => none
  | k + 1, i =>
    if i < swapBits then
      let i := if i = 1 then swapSize else i
      if bits i then some ([i], false)
      else (checkLoop swapSize bits k (i + 1)).map fun (l, ok) => (i :: l, ok)
    else some ([], true)

/-- `init_swapping`: the bits that are examined, and the bit-map that is kept.  `size` is that of
the device in blocks, 0 if `SWAP_DEV` or `blk_size` is not set, and `page` what `get_free_page`
and `read_swap_page` give. -/
def initSwapping (size : ℤ) (page : Option Bytes) : Option (List ℕ × Option Bytes) :=
  if size = 0 then some ([], none)
  else if size < 100 then some ([], none)
  else
    let size := if swapBits < size / 4 then swapBits else (size / 4).toNat
    match page with
    | none => some ([], none)
    | some bitmap =>
      if strncmp bitmap swapSpace 4086 ≠ 0 then some ([], none)
      else
        let bitmap := clearBytes bitmap 4086 10
        match checkLoop size (bit bitmap) (swapBits + 1) 0 with
        | none => none
        | some (l, false) => some (l, none)
        | some (l, true) =>
          let rest := List.range' 1 (size - 1)
          let j := rest.countP (bit bitmap)
          some (l ++ rest, if j = 0 then none else some bitmap)

/-! ### What it is for -/

/-- The page has the signature. -/
def Signed (page : Bytes) : Prop := ∀ i (h : i < 10), page (4086 + i) = swapSpace.get ⟨i, h⟩

/-- The pages of a device of which slots are made. -/
def slotLimit (size : ℤ) : ℕ := min (size / 4).toNat swapBits

/-- A swap area that is in order: bits are those without the signature. -/
structure InOrder (size : ℤ) (page : Bytes) : Prop where
  large : 100 ≤ size
  signed : Signed page
  first : bit (clearBytes page 4086 10) 0 = false
  last : ∀ n, slotLimit size ≤ n → n < swapBits → bit (clearBytes page 4086 10) n = false
  usable : ∃ n, 1 ≤ n ∧ n < slotLimit size ∧ bit (clearBytes page 4086 10) n = true

/-- The runs with a bit-map that has been kept. -/
def swappingWith (bitmap : Bytes) : System Swapper SwapEvent where
  init s := s.bitmap = (fun n => bit bitmap n && decide (n < swapBits)) ∧
    (∀ d i, s.word d i = 0 ∨ Word.Present (s.word d i)) ∧
    (∀ d i, s.dir d = none ∨ 1024 ≤ i → s.word d i = 0) ∧
    ∀ n, s.tasks n = .absent ∨ s.tasks n = .runs
  step s e s' := s.next e = some s'

/-- The page is examined and no more, what is kept is in order, and the slots that are handed
out later lie on the device. -/
structure Checked (size : ℤ) (page : Bytes) (examined : List ℕ) (kept : Option Bytes) :
    Prop where
  inPage : ∀ n ∈ examined, n < swapBits
  exact : kept.isSome ↔ InOrder size page
  onDevice : ∀ bitmap s nr, kept = some bitmap → (swappingWith bitmap).Reachable s →
    s.getSwapPage = some nr → nr ≠ 0 ∧ 4 * ((nr : ℤ) + 1) ≤ size

/-! ### The loop -/

variable {size : ℤ} {page : Bytes} {bits : ℕ → Bool} {k i n limit : ℕ}

theorem strncmp_eq_zero {ct : Bytes} {cs : List UInt8} (h : ∀ c ∈ cs, c ≠ 0) (i : ℕ) :
    strncmp ct cs i = 0 ↔ ∀ j (hj : j < cs.length), ct (i + j) = cs.get ⟨j, hj⟩ := by
  induction cs generalizing i with
  | nil => exact ⟨fun _ j hj => absurd hj (Nat.not_lt_zero j), fun _ => rfl⟩
  | cons c cs ih =>
    have hne : c ≠ 0 := h c List.mem_cons_self
    by_cases heq : ct i = c
    · rw [strncmp, if_pos heq, if_neg hne, ih (fun c' hc' => h c' (List.mem_cons_of_mem _ hc'))]
      constructor
      · intro hall j hj
        cases j with
        | zero => exact heq
        | succ j =>
          have hj' := hall j (by simpa using hj)
          rw [Nat.add_right_comm] at hj'
          exact hj'
      · intro hall j hj
        have hj' := hall (j + 1) (by simpa using hj)
        rw [Nat.add_right_comm]
        exact hj'
    · rw [strncmp, if_neg heq]
      refine iff_of_false ?_ fun hall => heq (hall 0 (by simp))
      split <;> decide

theorem signed_iff : strncmp page swapSpace 4086 = 0 ↔ Signed page :=
  strncmp_eq_zero (by simp [swapSpace]) 4086

/-- Behind the jump the loop is over consecutive bits, up to the first that is set. -/
theorem checkLoop_behind (limit : ℕ) (bits : ℕ → Bool) (hi : 1 < i) (hk : swapBits ≤ i + k) :
    ∃ l ok, checkLoop limit bits (k + 1) i = some (l, ok) ∧ (∀ n ∈ l, n < swapBits) ∧
      (ok = true ↔ ∀ n, i ≤ n → n < swapBits → bits n = false) := by
  induction k generalizing i with
  | zero =>
    refine ⟨[], true, by rw [checkLoop, if_neg (by omega)], by simp, ?_⟩
    exact iff_of_true rfl fun n hn hlt => absurd hlt (by omega)
  | succ k ih =>
    rw [checkLoop]
    split
    case isTrue hlt =>
      rw [if_neg (by omega : ¬ i = 1)]
      dsimp only
      split
      case isTrue hset =>
        refine ⟨[i], false, rfl, by simpa using hlt, iff_of_false (by decide) fun hall => ?_⟩
        rw [hall i le_rfl hlt] at hset
        cases hset
      case isFalse hclear =>
        obtain ⟨l, ok, hl, hin, hok⟩ := ih (by omega : 1 < i + 1) (by omega)
        refine ⟨i :: l, ok, by rw [hl]; rfl, ?_, ?_⟩
        · intro n hn
          rcases List.mem_cons.mp hn with rfl | hn
          · exact hlt
          · exact hin n hn
        · rw [hok]
          constructor
          · intro hall n hn hnlt
            rcases Nat.eq_or_lt_of_le hn with rfl | hn
            · exact Bool.not_eq_true _ ▸ hclear
            · exact hall n hn hnlt
          · exact fun hall n hn => hall n (by omega)
    case isFalse hge =>
      exact ⟨[], true, rfl, by simp, iff_of_true rfl fun n hn hlt => absurd hlt (by omega)⟩

/-- The first turn. -/
theorem checkLoop_first (hset : bits 0 = true) :
    checkLoop limit bits (k + 1) 0 = some ([0], false) := by
  rw [checkLoop, if_pos (by decide), if_neg (by decide : ¬ 0 = 1)]
  dsimp only
  rw [if_pos hset]

/-- The turn of the jump is made whatever the number of pages is. -/
theorem checkLoop_jump (limit k : ℕ) (hclear : bits 0 = false) :
    checkLoop limit bits (k + 2) 0 =
      if bits limit then some ([0, limit], false)
      else (checkLoop limit bits k (limit + 1)).map fun (l, ok) => (0 :: limit :: l, ok) := by
  have hfirst : ¬ bits 0 = true := by
    rw [hclear]
    decide
  rw [checkLoop, if_pos (by decide), if_neg (by decide : ¬ 0 = 1)]
  dsimp only
  rw [if_neg hfirst, checkLoop, if_pos (by decide), if_pos rfl]
  dsimp only
  split
  case isTrue => rfl
  case isFalse =>
    rw [Option.map_map]
    rfl

/-- The loop comes to an end; it stays in the page if there is a page less than bits. -/
theorem checkLoop_ends (bits : ℕ → Bool) (hpos : 1 ≤ limit) (hle : limit ≤ swapBits) :
    ∃ l ok, checkLoop limit bits (swapBits + 1) 0 = some (l, ok) ∧
      ((∀ n ∈ l, n < swapBits) ↔ limit < swapBits ∨ bits 0 = true) ∧
      (ok = true ↔ bits 0 = false ∧ bits limit = false ∧
        ∀ n, limit ≤ n → n < swapBits → bits n = false) := by
  rcases hfirst : bits 0 with _ | _
  · have hjump := checkLoop_jump limit (swapBits - 1) hfirst
    rw [show swapBits - 1 + 2 = swapBits + 1 from rfl] at hjump
    rw [hjump]
    split
    case isTrue hset =>
      refine ⟨[0, limit], false, rfl, by simp [swapBits], iff_of_false (by decide) fun hall => ?_⟩
      rw [hall.2.1] at hset
      cases hset
    case isFalse hclear =>
      obtain ⟨l, ok, hl, hin, hok⟩ := checkLoop_behind limit bits (i := limit + 1)
        (k := swapBits - 2) (by omega) (by rw [swapBits]; omega)
      rw [show swapBits - 2 + 1 = swapBits - 1 from rfl] at hl
      refine ⟨0 :: limit :: l, ok, by rw [hl]; rfl, ?_, ?_⟩
      · constructor
        · exact fun hall => .inl (hall limit (by simp))
        · intro hlt n hn
          have hlt : limit < swapBits := by simpa using hlt
          rcases List.mem_cons.mp hn with rfl | hn
          · decide
          · rcases List.mem_cons.mp hn with rfl | hn
            · exact hlt
            · exact hin n hn
      · have hclear : bits limit = false := Bool.not_eq_true _ ▸ hclear
        rw [hok]
        constructor
        · intro hall
          refine ⟨rfl, hclear, fun n hn hnlt => ?_⟩
          rcases Nat.eq_or_lt_of_le hn with rfl | hn
          · exact hclear
          · exact hall n hn hnlt
        · exact fun hall n hn => hall.2.2 n (by omega)
  · refine ⟨[0], false, checkLoop_first hfirst, by simp [swapBits], ?_⟩
    exact iff_of_false (by decide) fun hall => Bool.noConfusion hall.1

/-! ### Slots on the device -/

/-- A word names no slot from `limit` on. -/
def Word.Below (limit w : ℕ) : Prop := Word.Present w ∨ w / 2 < limit

def FrameUse.Below (limit : ℕ) : FrameUse → Prop
  | .swapIn _ _ nr => nr < limit
  | .copyPage _ _ _ _ w => Word.Below limit w
  | _ => True

def SwapPhase.Below (limit : ℕ) : SwapPhase → Prop
  | .frees u | .writes _ u => u.Below limit
  | .readsIn _ _ nr _ => nr < limit
  | .readsCopy _ _ _ _ w _ => Word.Below limit w
  | _ => True

/-- No slot from `limit` on is free, named by a word or known to a task. -/
structure OnDevice (limit : ℕ) (s : Swapper) : Prop where
  pos : 0 < limit
  bits : ∀ nr, s.bitmap nr = true → nr < limit
  words : ∀ d i, Word.Below limit (s.word d i)
  tasks : ∀ n, (s.tasks n).Below limit

namespace OnDevice

variable {s s' : Swapper} {c d j m nr p q t w : ℕ} {a : SwapPhase} {u : FrameUse}

theorem below_zero (h : OnDevice limit s) : Word.Below limit 0 := .inr h.pos

theorem below_clearRw (h : Word.Below limit w) : Word.Below limit (Word.clearRw w) := by
  rw [Word.Below, Word.Present] at *
  rw [Word.clearRw]
  split <;> omega

theorem congr (h : OnDevice limit s) (hb : s'.bitmap = s.bitmap) (hw : s'.word = s.word)
    (ht : s'.tasks = s.tasks) : OnDevice limit s' :=
  ⟨h.pos, hb ▸ h.bits, hw ▸ h.words, ht ▸ h.tasks⟩

theorem setWord (h : OnDevice limit s) (hw : Word.Below limit w) :
    OnDevice limit (s.setWord d i w) := by
  refine ⟨h.pos, h.bits, fun d' i' => ?_, h.tasks⟩
  rw [Swapper.word_setWord]
  split
  case isTrue => exact hw
  case isFalse => exact h.words d' i'

theorem setDir (h : OnDevice limit s) : OnDevice limit (s.setDir d t) := by
  refine ⟨h.pos, h.bits, fun d' i' => ?_, h.tasks⟩
  simp only [Swapper.setDir, Function.update_apply]
  split
  case isTrue => exact h.below_zero
  case isFalse => exact h.words d' i'

theorem setTask (h : OnDevice limit s) (ha : a.Below limit) :
    OnDevice limit (s.setTask n a) := by
  refine ⟨h.pos, h.bits, h.words, fun n' => ?_⟩
  simp only [Swapper.setTask, Function.update_apply]
  split
  case isTrue => exact ha
  case isFalse => exact h.tasks n'

theorem setMap {b : ℕ} (h : OnDevice limit s) : OnDevice limit (s.setMap p b) :=
  h.congr rfl rfl rfl

/-- A slot is freed. -/
theorem setBit (h : OnDevice limit s) (hnr : nr < limit) :
    OnDevice limit { s with bitmap := update s.bitmap nr true } := by
  refine ⟨h.pos, fun nr' hset => ?_, h.words, h.tasks⟩
  simp only [Function.update_apply] at hset
  split at hset
  case isTrue heq => exact heq ▸ hnr
  case isFalse => exact h.bits nr' hset

/-- A slot is taken. -/
theorem clearBit (h : OnDevice limit s) :
    OnDevice limit { s with bitmap := update s.bitmap nr false } := by
  refine ⟨h.pos, fun nr' hset => ?_, h.words, h.tasks⟩
  simp only [Function.update_apply] at hset
  split at hset
  case isTrue => cases hset
  case isFalse => exact h.bits nr' hset

theorem freePage (h : OnDevice limit s) (hs : s.freePage p = some s') : OnDevice limit s' := by
  rw [Swapper.freePage_eq hs]
  exact h.congr rfl rfl rfl

theorem swapFree (h : OnDevice limit s) (hnr : nr < limit) : OnDevice limit (s.swapFree nr) := by
  rw [Swapper.swapFree]
  split
  case isTrue => exact h
  case isFalse =>
    split
    case isTrue => exact h.setBit hnr
    case isFalse => exact h

theorem getSwapPage (h : OnDevice limit s) (hs : s.getSwapPage = some nr) :
    nr ≠ 0 ∧ nr < limit := by
  rw [Swapper.getSwapPage] at hs
  have hmem := List.mem_of_find?_eq_some hs
  rw [List.mem_range'_1] at hmem
  exact ⟨by omega, h.bits nr (List.find?_some hs)⟩

theorem tryToSwapOut {out : Option ℕ} (h : OnDevice limit s)
    (hs : s.tryToSwapOut d i = some (out, s')) : OnDevice limit s' := by
  rw [Swapper.tryToSwapOut] at hs
  split at hs
  case isTrue =>
    cases hs
    exact h
  case isFalse hpresent =>
    split at hs
    case isTrue =>
      cases hs
      exact h
    case isFalse =>
      split at hs
      case isTrue =>
        split at hs
        case isTrue =>
          cases hs
          exact h
        case isFalse =>
          split at hs
          case h_1 =>
            cases hs
            exact h
          case h_2 nr hnr =>
            obtain ⟨-, rfl⟩ := Prod.mk.inj (Option.some.inj hs)
            have hlt := (h.getSwapPage hnr).2
            have hword : Word.Below limit (nr * 2) := .inr (by omega)
            exact (h.setWord hword).clearBit
      case isFalse =>
        obtain ⟨s₁, hs₁, heq⟩ := Option.map_eq_some_iff.mp hs
        obtain ⟨-, rfl⟩ := Prod.mk.inj heq
        exact (h.setWord h.below_zero).freePage hs₁

theorem shareEnd {page : ℕ} (h : OnDevice limit s) (hs : s.shareEnd n d i page = some s') :
    OnDevice limit s' := by
  rw [Swapper.shareEnd] at hs
  split at hs
  case isTrue => cases hs
  case isFalse =>
    obtain rfl := Option.some.inj hs
    have hfrom := h.setWord (d := d) (i := i) (below_clearRw (h.words d i))
    have hto := hfrom.setWord (d := 16 * n + d % 16) (i := i) (hfrom.words d i)
    exact hto.setMap.setTask trivial

/-- The loops of `free_page_tables`. -/
theorem freeEntries (h : OnDevice limit s) (hs : Swapper.freeEntries d m i s = some s') :
    OnDevice limit s' := by
  induction m generalizing i s with
  | zero => exact Option.some.inj hs ▸ h
  | succ m ih =>
    rw [Swapper.freeEntries] at hs
    split at hs
    case isTrue => exact ih h hs
    case isFalse =>
      split at hs
      case isTrue =>
        split at hs
        case h_1 => cases hs
        case h_2 s₁ hs₁ =>
          have h₁ := h.freePage hs₁
          exact ih (h₁.setWord h₁.below_zero) hs
      case isFalse hpresent =>
        have hslot : s.word d i / 2 < limit := (h.words d i).resolve_left hpresent
        have h₁ := h.swapFree hslot
        exact ih (h₁.setWord h₁.below_zero) hs

theorem freeTables (h : OnDevice limit s) (hs : Swapper.freeTables m d s = some s') :
    OnDevice limit s' := by
  induction m generalizing d s with
  | zero => exact Option.some.inj hs ▸ h
  | succ m ih =>
    rw [Swapper.freeTables] at hs
    split at hs
    case h_1 => exact ih h hs
    case h_2 t _ =>
      split at hs
      case h_1 => cases hs
      case h_2 s₁ hs₁ =>
        split at hs
        case h_1 => cases hs
        case h_2 s₂ hs₂ =>
          have h₂ := (h.freeEntries hs₁).freePage hs₂
          exact ih (s := { s₂ with dir := update s₂.dir d none }) (h₂.congr rfl rfl rfl) hs

/-! ### Steps -/

theorem below_page : Word.Below limit (q * 4096 + 7) := .inl (by rw [Word.Present]; omega)

theorem below_dirty : Word.Below limit (q * 4096 + 71) := .inl (by rw [Word.Present]; omega)

theorem use (h : OnDevice limit s) (hu : u.Below limit) (hs : s.use n q u = some s') :
    OnDevice limit s' := by
  cases u with
  | swapIn j i nr => exact Option.some.inj hs ▸ h.setTask hu
  | share d t i page =>
    rw [Swapper.use] at hs
    split at hs
    case isTrue => exact h.setDir.shareEnd hs
    case isFalse => cases hs
  | copyTable c k j => exact Option.some.inj hs ▸ h.setDir.setTask trivial
  | copyPage c k j i w => exact Option.some.inj hs ▸ h.setTask hu
  | page j i =>
    rw [Swapper.use] at hs
    split at hs
    case isTrue => exact Option.some.inj hs ▸ h.setTask trivial
    case isFalse => exact Option.some.inj hs ▸ (h.setWord below_page).setTask trivial
  | put j i p => exact Option.some.inj hs ▸ (h.setDir.setWord below_page).setTask trivial

theorem fail (h : OnDevice limit s) (hs : s.fail n u = some s') : OnDevice limit s' := by
  cases u with
  | copyTable c k j =>
    obtain ⟨s₁, hs₁, rfl⟩ := Option.map_eq_some_iff.mp hs
    exact ((h.freeTables hs₁).setTask (a := .absent) trivial).setTask trivial
  | copyPage c k j i w =>
    obtain ⟨s₁, hs₁, rfl⟩ := Option.map_eq_some_iff.mp hs
    exact ((h.freeTables hs₁).setTask (a := .absent) trivial).setTask trivial
  | put j i p =>
    obtain ⟨s₁, hs₁, rfl⟩ := Option.map_eq_some_iff.mp hs
    exact (h.freePage hs₁).setTask trivial
  | swapIn j i nr => exact Option.some.inj hs ▸ h.setTask trivial
  | share d t i page => exact Option.some.inj hs ▸ h.setTask trivial
  | page j i => exact Option.some.inj hs ▸ h.setTask trivial

theorem copyDir (h : OnDevice limit s) (hs : s.copyDir n c k j = some s') :
    OnDevice limit s' := by
  rw [Swapper.copyDir] at hs
  split at hs
  case isTrue =>
    exact Option.some.inj hs ▸ (h.setTask (a := .runs) trivial).setTask trivial
  case isFalse =>
    split at hs
    case isTrue => cases hs
    case isFalse =>
      split at hs
      case isTrue => exact Option.some.inj hs ▸ h.setTask trivial
      case isFalse => exact Option.some.inj hs ▸ h.setTask trivial

theorem copyEntry (h : OnDevice limit s) : OnDevice limit (s.copyEntry n c k j i) := by
  rw [Swapper.copyEntry]
  dsimp only
  split
  case isTrue => exact h.setTask trivial
  case isFalse =>
    split
    case isTrue => exact h.setTask trivial
    case isFalse =>
      split
      case isTrue => exact h.setTask (h.words (16 * n + j) i)
      case isFalse =>
        have hword := below_clearRw (h.words (16 * n + j) i)
        have hchild := h.setWord (d := 16 * c + j) (i := i) hword
        split
        case isTrue => exact (hchild.setWord hword).setMap.setTask trivial
        case isFalse => exact hchild.setTask trivial

/-- Whatever the tasks do. -/
theorem next {e : SwapEvent} (h : OnDevice limit s) (hs : s.next e = some s') :
    OnDevice limit s' := by
  cases e with
  | fault n j i =>
    rw [Swapper.next] at hs
    split at hs
    case isFalse => cases hs
    case isTrue hcond =>
      split at hs
      case isTrue =>
        have hslot := (h.words (16 * n + j) i).resolve_left hcond.2.2.2
        exact Option.some.inj hs ▸ h.setTask hslot
      case isFalse => exact Option.some.inj hs ▸ h.setTask trivial
  | share n n' j i =>
    rw [Swapper.next] at hs
    split at hs
    case isFalse => cases hs
    case isTrue =>
      split at hs
      case h_1 => exact Option.some.inj hs ▸ h
      case h_2 t _ =>
        dsimp only at hs
        split at hs
        case isTrue => exact Option.some.inj hs ▸ h
        case isFalse =>
          split at hs
          case isTrue => exact Option.some.inj hs ▸ h.setTask trivial
          case isFalse => exact h.shareEnd hs
  | write n j i =>
    rw [Swapper.next] at hs
    split at hs
    case isFalse => cases hs
    case isTrue hcond =>
      have hpresent : Word.Present (s.word (16 * n + j) i + 64) := by
        have := hcond.2.2.2.1
        rw [Word.Present] at *
        omega
      exact Option.some.inj hs ▸ h.setWord (.inl hpresent)
  | fork n c k =>
    rw [Swapper.next] at hs
    split at hs
    case isFalse => cases hs
    case isTrue => exact Option.some.inj hs ▸ (h.setTask (a := .born) trivial).setTask trivial
  | copy n =>
    rw [Swapper.next] at hs
    split at hs
    case h_1 => exact h.copyDir hs
    case h_2 => exact Option.some.inj hs ▸ h.copyEntry
    case h_3 => cases hs
  | free n j k =>
    rw [Swapper.next] at hs
    split at hs
    case isTrue => exact h.freeTables hs
    case isFalse => cases hs
  | exit n =>
    rw [Swapper.next] at hs
    split at hs
    case isTrue => exact Option.some.inj hs ▸ h.setTask trivial
    case isFalse => cases hs
  | tryOut n d i =>
    rw [Swapper.next] at hs
    have hn := h.tasks n
    split at hs
    case h_2 => cases hs
    case h_1 u htask =>
      rw [htask] at hn
      split at hs
      case isFalse => cases hs
      case isTrue =>
        obtain ⟨⟨out, s₁⟩, hs₁, rfl⟩ := Option.map_eq_some_iff.mp hs
        have h₁ := h.tryToSwapOut hs₁
        cases out with
        | none => exact h₁
        | some p => exact h₁.setTask hn
  | wrote n =>
    rw [Swapper.next] at hs
    have hn := h.tasks n
    split at hs
    case h_2 => cases hs
    case h_1 p u htask =>
      rw [htask] at hn
      obtain ⟨s₁, hs₁, rfl⟩ := Option.map_eq_some_iff.mp hs
      exact (h.freePage hs₁).setTask hn
  | read n =>
    rw [Swapper.next] at hs
    have hn := h.tasks n
    split at hs
    case h_1 j i nr q htask =>
      rw [htask] at hn
      exact Option.some.inj hs ▸ ((h.setBit hn).setWord below_dirty).setTask trivial
    case h_2 c k j i w q htask =>
      rw [htask] at hn
      exact Option.some.inj hs ▸ ((h.setWord hn).setWord below_dirty).setTask trivial
    case h_3 => cases hs
  | got n =>
    rw [Swapper.next] at hs
    have hn := h.tasks n
    split at hs
    case h_2 => cases hs
    case h_1 u htask =>
      rw [htask] at hn
      split at hs
      case h_1 => cases hs
      case h_2 m _ =>
        have h₁ : OnDevice limit { s with memMap := update s.memMap m 1 } := h.congr rfl rfl rfl
        dsimp only at hs
        split at hs
        case isTrue => exact Option.some.inj hs ▸ h₁
        case isFalse => exact h₁.use hn hs
  | fails n =>
    rw [Swapper.next] at hs
    split at hs
    case h_1 => exact h.fail hs
    case h_2 => cases hs

end OnDevice

/-! ### The check -/

theorem bit_clearBytes_zero : bit (clearBytes page 4086 10) 0 = bit page 0 := by
  rw [bit, clearBytes, if_neg (by decide), bit]

/-- Slots from a bit-map all of whose bits are below `limit`. -/
theorem slots_below {bitmap : Bytes} {s : Swapper} {nr : ℕ} (hpos : 0 < limit)
    (hbits : ∀ n, bit bitmap n = true → n < swapBits → n < limit)
    (h : (swappingWith bitmap).Reachable s) (hnr : s.getSwapPage = some nr) :
    nr ≠ 0 ∧ nr < limit := by
  have hdevice : OnDevice limit s := by
    refine h.invariant (I := OnDevice limit) ?_ fun s e s' hs _ hstep => hs.next hstep
    rintro s ⟨hbitmap, hwords, -, htasks⟩
    refine ⟨hpos, fun n hn => ?_, fun d i => ?_, fun n => ?_⟩
    · rw [hbitmap, Bool.and_eq_true, decide_eq_true_eq] at hn
      exact hbits n hn.1 hn.2
    · rcases hwords d i with hzero | hpresent
      · rw [hzero]
        exact .inr hpos
      · exact .inl hpresent
    · rcases htasks n with htask | htask <;> rw [htask] <;> trivial
  exact hdevice.getSwapPage hnr

theorem slotLimit_pos (h : 100 ≤ size) : 1 ≤ slotLimit size := by
  rw [slotLimit, swapBits]
  omega

/-- What is left of `init_swapping` for a page with the signature. -/
theorem initSwapping_signed (hlarge : 100 ≤ size) (hsigned : Signed page) :
    initSwapping size (some page) =
      match checkLoop (slotLimit size) (bit (clearBytes page 4086 10)) (swapBits + 1) 0 with
      | none => none
      | some (l, false) => some (l, none)
      | some (l, true) =>
        some (l ++ List.range' 1 (slotLimit size - 1),
          if (List.range' 1 (slotLimit size - 1)).countP (bit (clearBytes page 4086 10)) = 0
          then none else some (clearBytes page 4086 10)) := by
  have hlimit : (if swapBits < size / 4 then swapBits else (size / 4).toNat) = slotLimit size := by
    rw [slotLimit]
    split <;> omega
  rw [initSwapping, if_neg (by omega), if_neg (by omega)]
  dsimp only
  rw [hlimit, if_neg (not_not.mpr (signed_iff.mpr hsigned))]

theorem countP_slots (p : ℕ → Bool) :
    (List.range' 1 (limit - 1)).countP p = 0 ↔ ¬ ∃ n, 1 ≤ n ∧ n < limit ∧ p n = true := by
  rw [List.countP_eq_zero]
  constructor
  · rintro hall ⟨n, hpos, hlt, hset⟩
    exact hall n (List.mem_range'_1.mpr ⟨hpos, by omega⟩) hset
  · intro hno n hn hset
    rw [List.mem_range'_1] at hn
    exact hno ⟨n, hn.1, by omega, hset⟩

/-- A page that is refused before any bit is examined. -/
theorem checked_none (h : ¬ InOrder size page) : Checked size page [] none :=
  ⟨by simp, iff_of_false (by simp) h, nofun⟩

/-- The bits that must be clear are, and what is kept is in order. -/
theorem checked_kept {l : List ℕ} (hlarge : 100 ≤ size) (hsigned : Signed page)
    (hl : ∀ n ∈ l, n < swapBits) (hfirst : bit (clearBytes page 4086 10) 0 = false)
    (hlast : ∀ n, slotLimit size ≤ n → n < swapBits →
      bit (clearBytes page 4086 10) n = false) :
    Checked size page (l ++ List.range' 1 (slotLimit size - 1))
      (if (List.range' 1 (slotLimit size - 1)).countP (bit (clearBytes page 4086 10)) = 0
        then none else some (clearBytes page 4086 10)) := by
  have hle : slotLimit size ≤ swapBits := Nat.min_le_right _ _
  refine ⟨fun n hn => ?_, ?_, fun bitmap s nr hkept hs hnr => ?_⟩
  · rcases List.mem_append.mp hn with hn | hn
    · exact hl n hn
    · rw [List.mem_range'_1] at hn
      omega
  · split
    case isTrue hzero =>
      exact iff_of_false (by simp) fun h => (countP_slots _).mp hzero h.usable
    case isFalse hsome =>
      have husable := not_not.mp fun hno => hsome ((countP_slots _).mpr hno)
      exact iff_of_true rfl ⟨hlarge, hsigned, hfirst, hlast, husable⟩
  · split at hkept
    case isTrue => cases hkept
    case isFalse =>
      obtain rfl := Option.some.inj hkept
      have hslot := slots_below (slotLimit_pos hlarge) (fun n hset hlt => ?_) hs hnr
      · refine ⟨hslot.1, ?_⟩
        rw [slotLimit] at hslot
        omega
      · by_contra hge
        rw [hlast n (by omega) hlt] at hset
        cases hset

/-- The check of the swap area is exact, and the slots that are handed out later lie on the
device, unless there are as many pages as bits and the first bit is clear: then the loop
examines the bit behind the page. -/
theorem swap_check (size : ℤ) (page : Bytes) :
    ∃ l kept, initSwapping size (some page) = some (l, kept) ∧
      (Checked size page l kept ↔ size < 131072 ∨ ¬ Signed page ∨ bit page 0 = true) := by
  by_cases hlarge : 100 ≤ size
  · by_cases hsigned : Signed page
    · have hle : slotLimit size ≤ swapBits := Nat.min_le_right _ _
      have hall : slotLimit size < swapBits ∨ bit (clearBytes page 4086 10) 0 = true ↔
          size < 131072 ∨ ¬ Signed page ∨ bit page 0 = true := by
        rw [bit_clearBytes_zero, slotLimit, swapBits]
        simp only [hsigned, not_true_eq_false, false_or]
        refine or_congr ?_ Iff.rfl
        omega
      obtain ⟨l, ok, hl, hin, hok⟩ := checkLoop_ends (bit (clearBytes page 4086 10))
        (slotLimit_pos hlarge) hle
      rw [initSwapping_signed hlarge hsigned, hl, ← hall, ← hin]
      cases ok with
      | false =>
        refine ⟨l, none, rfl, fun h => h.inPage, fun hpage => ⟨hpage, ?_, nofun⟩⟩
        refine iff_of_false (by simp) fun h => ?_
        refine Bool.noConfusion (hok.mpr ⟨h.first, ?_, h.last⟩)
        -- the first bit is clear, so that there is a page less than bits
        rcases hin.mp hpage with hlt | hset
        · exact h.last _ le_rfl hlt
        · rw [h.first] at hset
          cases hset
      | true =>
        refine ⟨_, _, rfl, fun h n hn => h.inPage n (List.mem_append_left _ hn), fun hpage => ?_⟩
        obtain ⟨hfirst, -, hlast⟩ := hok.mp rfl
        exact checked_kept hlarge hsigned hpage hfirst hlast
    · refine ⟨[], none, ?_, iff_of_true ?_ (.inr (.inl hsigned))⟩
      · rw [initSwapping, if_neg (by omega), if_neg (by omega)]
        dsimp only
        rw [if_pos (fun h => hsigned (signed_iff.mp h))]
      · exact checked_none fun h => hsigned h.signed
  · refine ⟨[], none, ?_, iff_of_true ?_ (.inl (by omega))⟩
    · rw [initSwapping]
      split
      case isTrue => rfl
      case isFalse => rw [if_pos (by omega)]
    · exact checked_none fun h => hlarge h.large

/-- A page in order whose second bit is set, and a byte behind it. -/
def fullPage : Bytes := fun i =>
  if i = 0 then 2
  else if i < 4086 then 0
  else if i = 4096 then 1
  else swapSpace.getD (i - 4086) 0

/-- 32768 pages, and a bit set behind the page: the area is in order and is refused. -/
theorem swap_check_overrun :
    initSwapping 131072 (some fullPage) = some ([0, 32768], none) ∧
      InOrder 131072 fullPage ∧ ¬ Checked 131072 fullPage [0, 32768] none := by
  have hsigned : Signed fullPage := by
    intro i hi
    interval_cases i <;> rfl
  have horder : InOrder 131072 fullPage :=
    ⟨by decide, hsigned, by decide, fun n hn hlt => absurd hlt (Nat.not_lt.mpr hn),
      1, le_rfl, by decide, by decide⟩
  refine ⟨?_, horder, fun h => absurd (h.inPage 32768 (by simp)) (by decide)⟩
  have hjump := checkLoop_jump (slotLimit 131072) (swapBits - 1) horder.first
  rw [if_pos (by decide)] at hjump
  rw [initSwapping_signed (by decide) hsigned]
  rw [show swapBits + 1 = swapBits - 1 + 2 from rfl, hjump]
  rfl

theorem bit_clearBytes (n : ℕ) : bit (clearBytes page 4086 10) n =
    (bit page n && decide (n < 4086 * 8 ∨ 4096 * 8 ≤ n)) := by
  rw [bit, clearBytes]
  split
  case isTrue hin =>
    rw [decide_eq_false (by omega), Bool.and_false]
    exact Nat.zero_testBit _
  case isFalse hout => rw [decide_eq_true (by omega), Bool.and_true, bit]

/-- The bit-map that the runs of `swapping` start with is the one that is kept. -/
theorem initSwapping_bitmap (hlarge : 100 ≤ size) (hsigned : Signed page) :
    ∃ l kept, initSwapping size (some page) = some (l, kept) ∧
      Swapper.initSwapping size.toNat (bit page) =
        kept.map fun bitmap n => bit bitmap n && decide (n < swapBits) := by
  have hle : slotLimit size ≤ swapBits := Nat.min_le_right _ _
  have hlimit : min (size.toNat / 4) swapBits = slotLimit size := by
    rw [slotLimit, show size.toNat / 4 = (size / 4).toNat by omega]
  obtain ⟨l, ok, hl, -, hok⟩ := checkLoop_ends (bit (clearBytes page 4086 10))
    (slotLimit_pos hlarge) hle
  have hsize : ¬ size.toNat < 100 := by omega
  rw [initSwapping_signed hlarge hsigned, hl, Swapper.initSwapping, if_neg hsize]
  simp only [hlimit, ← bit_clearBytes]
  have hgood : (bit (clearBytes page 4086 10) 0 = true ∨
      bit (clearBytes page 4086 10) (slotLimit size) = true ∨
      ∃ n < swapBits, slotLimit size ≤ n ∧ bit (clearBytes page 4086 10) n = true) ↔
        ok = false := by
    rw [← Bool.not_eq_true, hok]
    constructor
    · rintro (hset | hset | ⟨n, hlt, hn, hset⟩) ⟨hfirst, hjump, hlast⟩
      · exact absurd (hset.symm.trans hfirst) (by decide)
      · exact absurd (hset.symm.trans hjump) (by decide)
      · exact absurd (hset.symm.trans (hlast n hn hlt)) (by decide)
    · intro hbad
      by_contra hno
      push Not at hno
      simp only [ne_eq, Bool.not_eq_true] at hno
      exact hbad ⟨hno.1, hno.2.1, fun n hn hlt => hno.2.2 n hlt hn⟩
  rw [if_congr hgood rfl rfl]
  cases ok with
  | false => exact ⟨l, none, rfl, rfl⟩
  | true =>
    refine ⟨_, _, rfl, ?_⟩
    rw [if_neg (by decide)]
    split
    case isTrue hsome =>
      obtain ⟨n, hlt, hpos, hset⟩ := hsome
      rw [if_neg]
      · rfl
      · exact fun hzero => (countP_slots _).mp hzero ⟨n, hpos, hlt, hset⟩
    case isFalse hnone =>
      rw [if_pos]
      · rfl
      · refine (countP_slots _).mpr ?_
        rintro ⟨n, hpos, hlt, hset⟩
        exact hnone ⟨n, hlt, hpos, hset⟩

theorem initSwapping_bitmap_full : ∃ l kept, initSwapping 131072 (some fullPage) = some (l, kept) ∧
    Swapper.initSwapping 131072 (bit fullPage) =
      kept.map fun bitmap n => bit bitmap n && decide (n < swapBits) := by
  have hsigned : Signed fullPage := by
    intro i hi
    interval_cases i <;> rfl
  exact initSwapping_bitmap (by decide) hsigned

end Mm
