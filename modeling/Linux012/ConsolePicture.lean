/-
What a console shows: the terminal that it stands for.

* `Terminal` — the lines of cells, with the same other fields; its actions say what each
  sequence means, on lines and columns;
* `Shows` — the cells of a console in the video memory are those of a terminal;
* `perform_shows`, `write_shows` — every function of console.c does what the action means, however
  the adapter scrolls;
* `virtual_terminals` — each console is a terminal of its own, whatever is written to the others;
* `scrolling_agrees` — the two ways to scroll show the same.
-/
import Linux012.ConsoleMemory

namespace Console

open Function (update)
open BlockMoves

/-! ### Terminals -/

/-- A terminal: the cell in each line and column. -/
structure Terminal extends Vt where
  grid : ℕ → ℕ → Cell

namespace Terminal

variable (v : Video)

/-- The lines from `top` on move up, and a blank one comes above `bottom`. -/
def scrollUp (t : Terminal) (top bottom : ℕ) : Terminal :=
  { t with
    grid := fun r c =>
      if top ≤ r ∧ r < bottom then if r + 1 < bottom then t.grid (r + 1) c else t.eraseChar
      else t.grid r c }

/-- The lines to `bottom` move down, and a blank one comes at `top`. -/
def scrollDown (t : Terminal) (top bottom : ℕ) : Terminal :=
  { t with
    grid := fun r c =>
      if top ≤ r ∧ r < bottom then if top < r then t.grid (r - 1) c else t.eraseChar
      else t.grid r c }

/-- The cells with `p` become blank. -/
def blank (t : Terminal) (p : ℕ → ℕ → Prop) [∀ r c, Decidable (p r c)] : Terminal :=
  { t with grid := fun r c => if p r c then t.eraseChar else t.grid r c }

/-- One cell changes. -/
def setCell (t : Terminal) (r c : ℕ) (cell : Cell) : Terminal :=
  { t with grid := fun r' c' => if r' = r ∧ c' = c then cell else t.grid r' c' }

def gotoxy (t : Terminal) (newX newY : BitVec 32) : Terminal :=
  if v.cols < newX.toNat ∨ v.lines ≤ newY.toNat then t
  else { t with x := newX.toNat, y := newY.toNat }

def lf (t : Terminal) : Terminal :=
  if t.y + 1 < t.bottom then { t with y := t.y + 1 } else t.scrollUp t.top t.bottom

def ri (t : Terminal) : Terminal :=
  if t.top < t.y then { t with y := t.y - 1 } else t.scrollDown t.top t.bottom

def del (t : Terminal) : Terminal :=
  if t.x = 0 then t else { t with x := t.x - 1 }.setCell t.y (t.x - 1) t.eraseChar

def newLine (t : Terminal) : Terminal := { t with x := t.x - v.cols }.lf

def put (t : Terminal) (glyph : BitVec 8) : Terminal :=
  let t := if v.cols ≤ t.x then t.newLine v else t
  { t.setCell t.y t.x ⟨glyph, t.attr⟩ with x := t.x + 1 }

def tab (t : Terminal) : Terminal :=
  let t := { t with x := t.x + (8 - t.x % 8) }
  if v.cols < t.x then t.newLine v else t

/-- To the end of the screen, from its start, or all. -/
def csiJ (t : Terminal) (vpar : BitVec 32) : Terminal :=
  match vpar.toNat with
  | 0 => t.blank fun r c => t.y < r ∨ r = t.y ∧ t.x ≤ c
  | 1 => t.blank fun r c => r < t.y ∨ r = t.y ∧ c < t.x
  | 2 => t.blank fun _ _ => True
  | _ => t

/-- To the end of the line, from its start, or all of it. -/
def csiK (t : Terminal) (vpar : BitVec 32) : Terminal :=
  match vpar.toNat with
  | 0 => t.blank fun r c => r = t.y ∧ t.x ≤ c
  | 1 => t.blank fun r c => r = t.y ∧ c < t.x
  | 2 => t.blank fun r _ => r = t.y
  | _ => t

/-- What is behind the cursor moves to the right. -/
def insertChar (t : Terminal) : Terminal :=
  { t with
    grid := fun r c =>
      if r = t.y ∧ t.x ≤ c then if c = t.x then t.eraseChar else t.grid r (c - 1)
      else t.grid r c }

/-- What is behind the cursor moves to the left. -/
def deleteChar (t : Terminal) : Terminal :=
  { t with
    grid := fun r c =>
      if r = t.y ∧ t.x ≤ c then if c + 1 < v.cols then t.grid r (c + 1) else t.eraseChar
      else t.grid r c }

def perform (t : Terminal) : Action → Terminal
  | .stay => t
  | .gotoxy newX newY => t.gotoxy v newX newY
  | .lf => t.lf
  | .ri => t.ri
  | .cr => { t with x := 0 }
  | .del => t.del
  | .put glyph => t.put v glyph
  | .back => { t with x := t.x - 1 }
  | .tab => t.tab v
  | .csiJ vpar => t.csiJ vpar
  | .csiK vpar => t.csiK vpar
  | .csiAt nr => insertChar^[times nr v.cols] t
  | .csiL nr => (fun t => t.scrollDown t.y v.lines)^[times nr v.lines] t
  | .csiP nr => (deleteChar v)^[times nr v.cols] t
  | .csiM nr => (fun t => t.scrollUp t.y v.lines)^[times nr v.lines] t

def write (erase : BitVec 8) (t : Terminal) (c : BitVec 8) : Terminal :=
  let r := t.toVt.interpret v erase c
  { t with toVt := r.1 }.perform v r.2

def print (t : Terminal) (c : BitVec 8) : Terminal :=
  if c = 10 then { t with x := 0 }.lf else if c = 13 then { t with x := 0 } else t.put v c

end Terminal

/-! ### Cells in the memory -/

section

variable {m : ℕ → BitVec 8} {a p dst src : ℕ}

theorem cellAt_congr {m' : ℕ → BitVec 8} (h : m' a = m a) (h' : m' (a + 1) = m (a + 1)) :
    Screen.cellAt m' a = Screen.cellAt m a := by
  rw [Screen.cellAt, Screen.cellAt, h, h']

theorem cellAt_stos (cell : Cell) (n : ℕ) (m : ℕ → BitVec 8) (hpar : (a + p) % 2 = 0) :
    Screen.cellAt (stos 2 cell.byte n m p) a =
      if p ≤ a ∧ a < p + 2 * n then cell else Screen.cellAt m a := by
  by_cases hin : p ≤ a ∧ a < p + 2 * n
  · have hchar : (a - p) % 2 = 0 := by omega
    have hattr : (a + 1 - p) % 2 = 1 := by omega
    rw [if_pos hin, Screen.cellAt, stos_apply, stos_apply, if_pos hin, if_pos (by omega), hchar,
      hattr]
    rfl
  · rw [if_neg hin]
    refine cellAt_congr ?_ ?_ <;> rw [stos_apply, if_neg (by omega)]

theorem cellAt_put (cell : Cell) (m : ℕ → BitVec 8) (hpar : (a + p) % 2 = 0) :
    Screen.cellAt (BlockMoves.put 2 cell.byte m p) a =
      if a = p then cell else Screen.cellAt m a := by
  have hone := cellAt_stos cell 1 m hpar
  rw [show stos 2 cell.byte 1 m p = BlockMoves.put 2 cell.byte m p from rfl] at hone
  rw [hone]
  exact if_congr (by omega) rfl rfl

theorem cellAt_stosDown (cell : Cell) (n : ℕ) (m : ℕ → BitVec 8) (hpar : (a + p) % 2 = 0)
    (hn : 2 * n ≤ p + 2) : Screen.cellAt (stosDown 2 cell.byte n m p) a =
      if p + 2 ≤ a + 2 * n ∧ a < p + 2 then cell else Screen.cellAt m a := by
  by_cases hin : p + 2 ≤ a + 2 * n ∧ a < p + 2
  · have hchar : (a + 2 * n - (p + 2)) % 2 = 0 := by omega
    have hattr : (a + 1 + 2 * n - (p + 2)) % 2 = 1 := by omega
    rw [if_pos hin, Screen.cellAt, stosDown_apply _ _ _ _ _ _ hn, stosDown_apply _ _ _ _ _ _ hn,
      if_pos hin, if_pos (by omega), hchar, hattr]
    rfl
  · rw [if_neg hin]
    refine cellAt_congr ?_ ?_ <;> rw [stosDown_apply _ _ _ _ _ _ hn, if_neg (by omega)]

theorem cellAt_movs (n : ℕ) (m : ℕ → BitVec 8) (h : dst ≤ src) (hpar : (a + dst) % 2 = 0) :
    Screen.cellAt (movs 4 n m dst src) a =
      if dst ≤ a ∧ a < dst + 4 * n then Screen.cellAt m (a + (src - dst))
      else Screen.cellAt m a := by
  by_cases hin : dst ≤ a ∧ a < dst + 4 * n
  · rw [if_pos hin, Screen.cellAt, movs_apply _ _ _ _ h, movs_apply _ _ _ _ h, if_pos hin,
      if_pos (by omega), Nat.add_right_comm]
    rfl
  · rw [if_neg hin]
    refine cellAt_congr ?_ ?_ <;> rw [movs_apply _ _ _ _ h, if_neg (by omega)]

theorem cellAt_movsDown (n : ℕ) (m : ℕ → BitVec 8) (h : src ≤ dst) (hn : 4 * n ≤ src + 4)
    (hpar : (a + dst) % 2 = 0) : Screen.cellAt (movsDown 4 n m dst src) a =
      if dst + 4 ≤ a + 4 * n ∧ a < dst + 4 then Screen.cellAt m (a - (dst - src))
      else Screen.cellAt m a := by
  by_cases hin : dst + 4 ≤ a + 4 * n ∧ a < dst + 4
  · have hsub : a + 1 - (dst - src) = a - (dst - src) + 1 := by omega
    rw [if_pos hin, Screen.cellAt, movsDown_apply _ _ _ _ h hn, movsDown_apply _ _ _ _ h hn,
      if_pos hin, if_pos (by omega), hsub]
    rfl
  · rw [if_neg hin]
    refine cellAt_congr ?_ ?_ <;> rw [movsDown_apply _ _ _ _ h hn, if_neg (by omega)]

/-- What is pushed to the right by the loop of `insert_char`. -/
theorem cellAt_insertLoop (n : ℕ) (m : ℕ → BitVec 8) (old : Cell) (hpar : (a + p) % 2 = 0) :
    Screen.cellAt (Screen.insertLoop n m p old) a =
      if p ≤ a ∧ a < p + 2 * n then if a = p then old else Screen.cellAt m (a - 2)
      else Screen.cellAt m a := by
  induction n generalizing m p old with
  | zero =>
    rw [if_neg (by omega)]
    rfl
  | succ n ih =>
    rw [Screen.insertLoop, ih _ _ (by omega)]
    by_cases hlater : p + 2 ≤ a ∧ a < p + 2 + 2 * n
    · rw [if_pos hlater]
      by_cases hnext : a = p + 2
      · rw [if_pos hnext, if_pos (by omega), if_neg (by omega), hnext, Nat.add_sub_cancel]
      · rw [if_neg hnext, if_pos (by omega), if_neg (by omega), cellAt_put _ _ (by omega),
          if_neg (by omega)]
    · rw [if_neg hlater, cellAt_put _ _ hpar]
      by_cases hhere : a = p
      · rw [if_pos hhere, if_pos (by omega), if_pos hhere]
      · rw [if_neg hhere, if_neg (by omega)]

/-- What is pulled to the left by the loop of `delete_char`. -/
theorem cellAt_deleteLoop (blank : Cell) (n : ℕ) (m : ℕ → BitVec 8) (hpar : (a + p) % 2 = 0) :
    Screen.cellAt (Screen.deleteLoop blank n m p) a =
      if p ≤ a ∧ a < p + 2 * (n + 1) then
        if a < p + 2 * n then Screen.cellAt m (a + 2) else blank
      else Screen.cellAt m a := by
  induction n generalizing m p with
  | zero =>
    rw [Screen.deleteLoop, cellAt_put _ _ hpar]
    by_cases hhere : a = p
    · rw [if_pos hhere, if_pos (by omega), if_neg (by omega)]
    · rw [if_neg hhere, if_neg (by omega)]
  | succ n ih =>
    rw [Screen.deleteLoop, ih _ (by omega)]
    by_cases hlater : p + 2 ≤ a ∧ a < p + 2 + 2 * (n + 1)
    · rw [if_pos hlater]
      by_cases hlast : a < p + 2 + 2 * n
      · rw [if_pos hlast, if_pos (by omega), if_pos (by omega), cellAt_put _ _ (by omega),
          if_neg (by omega)]
      · rw [if_neg hlast, if_pos (by omega), if_neg (by omega)]
    · rw [if_neg hlater, cellAt_put _ _ hpar]
      by_cases hhere : a = p
      · rw [if_pos hhere, if_pos (by omega), if_pos (by omega), hhere]
      · rw [if_neg hhere, if_neg (by omega)]

end

/-! ### Places on the screen -/

/-- Where a cell is, from the origin of the screen on. -/
def Video.addr (v : Video) (r c : ℕ) : ℕ := r * v.sizeRow + c * 2

/-- The screen of a console shows a terminal. -/
structure Shows (v : Video) (s : Screen) (t : Terminal) : Prop where
  vt : s.toVt = t.toVt
  cells : ∀ r < v.lines, ∀ c < v.cols, Screen.cellAt s.mem (s.origin + v.addr r c) = t.grid r c

variable {v : Video} {s : Screen} {t : Terminal} {fg : Bool} {r c x y : ℕ}

namespace Video

theorem sizeRow_eq (v : Video) : v.sizeRow = v.cols * 2 := rfl

theorem addr_eq (v : Video) (r c : ℕ) : v.addr r c = v.addr r 0 + c * 2 := by
  rw [addr, addr, Nat.zero_mul, Nat.add_zero]

theorem addr_even (v : Video) (r c : ℕ) : v.addr r c % 2 = 0 := by
  have : r * v.sizeRow = r * v.cols * 2 := (Nat.mul_assoc _ _ _).symm
  rw [addr]
  omega

theorem addr_zero (v : Video) (r : ℕ) : v.addr r 0 = r * v.sizeRow := by
  rw [addr, Nat.zero_mul, Nat.add_zero]

theorem addr_succ (v : Video) (r c : ℕ) : v.addr (r + 1) c = v.addr r c + v.sizeRow := by
  rw [addr, addr, Nat.succ_mul]
  omega

/-- The cells are in the order of reading. -/
theorem addr_le_iff (hx : x ≤ v.cols) (hc : c < v.cols) :
    v.addr y x ≤ v.addr r c ↔ y < r ∨ r = y ∧ x ≤ c := by
  have hrow := v.sizeRow_eq
  rw [addr, addr]
  rcases Nat.lt_trichotomy y r with hlt | rfl | hlt
  · have : y * v.sizeRow + v.sizeRow ≤ r * v.sizeRow := by
      rw [← Nat.succ_mul]
      exact Nat.mul_le_mul_right _ hlt
    omega
  · omega
  · have : r * v.sizeRow + v.sizeRow ≤ y * v.sizeRow := by
      rw [← Nat.succ_mul]
      exact Nat.mul_le_mul_right _ hlt
    omega

theorem addr_lt_iff (hx : x ≤ v.cols) (hc : c < v.cols) :
    v.addr r c < v.addr y x ↔ r < y ∨ r = y ∧ c < x := by
  have hle := addr_le_iff (v := v) (y := y) (r := r) hx hc
  omega

/-- A line of the screen. -/
theorem mem_line_iff (hx : x ≤ v.cols) (hc : c < v.cols) :
    v.addr y x ≤ v.addr r c ∧ v.addr r c < v.addr y 0 + v.sizeRow ↔ r = y ∧ x ≤ c := by
  rw [← addr_succ, addr_le_iff hx hc, addr_lt_iff (Nat.zero_le _) hc]
  omega

theorem line_le_iff (hc : c < v.cols) : v.addr y 0 ≤ v.addr r c ↔ y ≤ r := by
  rw [addr_le_iff (Nat.zero_le _) hc]
  omega

theorem lt_line_iff (hc : c < v.cols) : v.addr r c < v.addr y 0 ↔ r < y := by
  rw [addr_lt_iff (Nat.zero_le _) hc]
  omega

/-- The lines of a region, which are moved four bytes at a time. -/
theorem region_addr (heven : v.cols % 2 = 0) {top bottom : ℕ} (h : top < bottom) :
    4 * ((bottom - top - 1) * v.cols / 2) + v.addr (top + 1) 0 = v.addr bottom 0 := by
  obtain ⟨k, rfl⟩ : ∃ k, bottom = top + k + 1 := ⟨bottom - top - 1, by omega⟩
  obtain ⟨j, hj⟩ : ∃ j, v.cols = 2 * j := ⟨v.cols / 2, by omega⟩
  have hk : top + k + 1 - top - 1 = k := by omega
  have hhalf : k * (2 * j) / 2 = k * j := by
    rw [Nat.mul_left_comm, Nat.mul_div_cancel_left _ (by decide)]
  have hbytes : k * (2 * j * 2) = 4 * (k * j) := by
    rw [Nat.mul_right_comm, Nat.mul_left_comm]
  rw [hk, addr_zero, addr_zero, sizeRow_eq, hj, hhalf, ← hbytes, ← Nat.add_mul]
  congr 1
  omega

end Video

/-- All lines of the screen move up. -/
theorem Terminal.scrollUp_grid (t : Terminal) (hr : r < v.lines) :
    (t.scrollUp 0 v.lines).grid r c =
      if r + 1 < v.lines then t.grid (r + 1) c else t.eraseChar :=
  if_pos ⟨Nat.zero_le r, hr⟩

namespace Shows

theorem eraseChar (h : Shows v s t) : s.eraseChar = t.eraseChar := congrArg Vt.eraseChar h.vt

theorem x_eq (h : Shows v s t) : s.x = t.x := congrArg Vt.x h.vt

theorem y_eq (h : Shows v s t) : s.y = t.y := congrArg Vt.y h.vt

theorem top_eq (h : Shows v s t) : s.top = t.top := congrArg Vt.top h.vt

theorem bottom_eq (h : Shows v s t) : s.bottom = t.bottom := congrArg Vt.bottom h.vt

/-- Only fields of the terminal change, and the cursor with them. -/
theorem cursor (h : Shows v s t) (f : Vt → Vt) {pos : ℕ} :
    Shows v { s with toVt := f s.toVt, pos := pos } { t with toVt := f t.toVt } :=
  ⟨congrArg f h.vt, h.cells⟩

/-- Only the memory changes. -/
theorem store (h : Shows v s t) {m : ℕ → BitVec 8} {g : ℕ → ℕ → Cell}
    (hm : ∀ r < v.lines, ∀ c < v.cols, Screen.cellAt m (s.origin + v.addr r c) = g r c) :
    Shows v { s with mem := m } { t with grid := g } := ⟨h.vt, hm⟩

/-- Cells from `d` on are erased: those of the screen with `q`. -/
theorem erase (h : Shows v s t) {d count : ℕ} {q : ℕ → ℕ → Prop} [∀ r c, Decidable (q r c)]
    (hd : d % 2 = 0) (hq : ∀ r < v.lines, ∀ c < v.cols,
      (d ≤ v.addr r c ∧ v.addr r c < d + 2 * count ↔ q r c)) :
    Shows v (s.erase count (s.origin + d)) (t.blank q) := by
  refine h.store fun r hr c hc => ?_
  have heven := v.addr_even r c
  rw [cellAt_stos _ _ _ (by omega), h.cells r hr c hc, h.eraseChar]
  have hin : s.origin + d ≤ s.origin + v.addr r c ∧
      s.origin + v.addr r c < s.origin + d + 2 * count ↔
      d ≤ v.addr r c ∧ v.addr r c < d + 2 * count := by omega
  exact if_congr (hin.trans (hq r hr c hc)) rfl rfl

/-- One cell is stored. -/
theorem putCell (h : Shows v s t) (hx : x < v.cols) (cell : Cell) :
    Shows v { s with mem := BlockMoves.put 2 cell.byte s.mem (s.origin + v.addr y x) }
      (t.setCell y x cell) := by
  refine h.store fun r hr c hc => ?_
  have heven := v.addr_even r c
  have heven' := v.addr_even y x
  rw [cellAt_put _ _ (by omega), h.cells r hr c hc]
  have hle := Video.addr_le_iff (v := v) (y := y) (r := r) (Nat.le_of_lt hx) hc
  have hge := Video.addr_le_iff (v := v) (y := r) (r := y) (Nat.le_of_lt hc) hx
  exact if_congr (by omega) rfl rfl

end Shows

namespace Screen

theorem Placed.pos_addr (h : s.Placed v) : s.pos = s.origin + v.addr s.y s.x := by
  rw [h.pos_eq, Video.addr, Nat.add_assoc]

theorem Placed.end_addr (h : s.Placed v) : s.scrEnd = s.origin + v.addr v.lines 0 := by
  rw [h.scrEnd_eq, Video.addr_zero]

/-! ### Erasing -/

theorem csiJ_shows (hp : s.Placed v) (h : Shows v s t) (vpar : BitVec 32) :
    Shows v (s.csiJ v vpar) (t.csiJ vpar) := by
  have hpos := hp.pos_addr
  have hend := hp.end_addr
  have heven := v.addr_even s.y s.x
  have heven' := v.addr_even v.lines 0
  have hx := hp.x_le
  have hon : ∀ r < v.lines, ∀ c < v.cols, v.addr r c < v.addr v.lines 0 := fun r hr c hc =>
    (Video.addr_lt_iff (Nat.zero_le _) hc).mpr (.inl hr)
  have hin : v.addr s.y s.x ≤ v.addr v.lines 0 := by
    have := hp.line_le
    have := v.sizeRow_eq
    rw [Video.addr_zero, Video.addr]
    omega
  rw [csiJ, Terminal.csiJ]
  generalize vpar.toNat = n
  rcases n with _ | _ | _ | n
  · show Shows v (s.erase _ _) (t.blank _)
    rw [hpos]
    refine h.erase heven fun r hr c hc => ?_
    have hlt := hon r hr c hc
    rw [← h.x_eq, ← h.y_eq, ← Video.addr_le_iff hx hc]
    omega
  · show Shows v (s.erase _ (s.origin + 0)) (t.blank _)
    refine h.erase rfl fun r hr c hc => ?_
    rw [← h.x_eq, ← h.y_eq, ← Video.addr_lt_iff hx hc]
    omega
  · show Shows v (s.erase _ (s.origin + 0)) (t.blank _)
    refine h.erase rfl fun r hr c hc => ?_
    have hlt := hon r hr c hc
    have hall : 2 * (v.cols * v.lines) = v.addr v.lines 0 := by
      rw [Video.addr_zero, v.sizeRow_eq, Nat.mul_comm v.cols v.lines, ← Nat.mul_assoc v.lines,
        Nat.mul_comm 2]
    rw [iff_true]
    omega
  · exact h

theorem csiK_shows (hp : s.Placed v) (h : Shows v s t) (vpar : BitVec 32) :
    Shows v (s.csiK v vpar) (t.csiK vpar) := by
  have hpos := hp.pos_addr
  have hrow := v.sizeRow_eq
  have hx := hp.x_le
  have hline := v.addr_eq s.y s.x
  have hstart : s.pos - s.x * 2 = s.origin + v.addr s.y 0 := by omega
  have heven := v.addr_even s.y 0
  rw [csiK, Terminal.csiK]
  generalize vpar.toNat = n
  rcases n with _ | _ | _ | n
  · show Shows v (if v.cols ≤ s.x then s else s.erase _ _) (t.blank _)
    split
    case isTrue hend =>
      refine ⟨h.vt, fun r hr c hc => ?_⟩
      have hx' := h.x_eq
      rw [h.cells r hr c hc]
      exact (if_neg (by omega)).symm
    case isFalse hlt =>
      rw [hpos]
      refine h.erase (v.addr_even _ _) fun r hr c hc => ?_
      rw [← h.x_eq, ← h.y_eq, ← Video.mem_line_iff hx hc]
      omega
  · have hcount : (if s.x < v.cols then s.x else v.cols) = s.x := by
      split <;> omega
    show Shows v (s.erase (if s.x < v.cols then s.x else v.cols) _) (t.blank _)
    rw [hstart, hcount]
    refine h.erase heven fun r hr c hc => ?_
    have hlt := Video.addr_lt_iff (v := v) (r := r) (y := s.y) hx hc
    have hge := Video.addr_le_iff (v := v) (r := r) (y := s.y) (Nat.zero_le _) hc
    rw [← h.x_eq, ← h.y_eq]
    omega
  · show Shows v (s.erase _ _) (t.blank _)
    rw [hstart]
    refine h.erase heven fun r hr c hc => ?_
    have hmem := Video.mem_line_iff (v := v) (r := r) (y := s.y) (Nat.zero_le _) hc
    rw [← h.y_eq]
    omega
  · exact h

/-! ### Characters that move along the line -/

theorem insertChar_shows (hp : s.Placed v) (h : Shows v s t) :
    Shows v (s.insertChar v) t.insertChar := by
  have hx := hp.x_le
  have hline := v.addr_eq s.y s.x
  have hrow := v.sizeRow_eq
  refine h.store fun r hr c hc => ?_
  have heven := v.addr_even r c
  have heven' := v.addr_even s.y s.x
  have hmem := Video.mem_line_iff (v := v) (r := r) (y := s.y) hx hc
  rw [hp.pos_addr, cellAt_insertLoop _ _ _ (by omega), ← h.x_eq, ← h.y_eq, h.cells r hr c hc]
  by_cases hin : r = s.y ∧ s.x ≤ c
  · rw [if_pos hin, if_pos (by omega)]
    obtain ⟨rfl, hle⟩ := hin
    have haddr := v.addr_eq s.y c
    by_cases hfirst : c = s.x
    · rw [if_pos hfirst, if_pos (by rw [hfirst]), h.eraseChar]
    · have hprev : s.origin + v.addr s.y c - 2 = s.origin + v.addr s.y (c - 1) := by
        have := v.addr_eq s.y (c - 1)
        omega
      rw [if_neg hfirst, if_neg (by omega), hprev, h.cells _ hr _ (by omega)]
  · rw [if_neg hin, if_neg (by omega)]

theorem deleteChar_shows (hp : s.Placed v) (h : Shows v s t) :
    Shows v (s.deleteChar v) (t.deleteChar v) := by
  have hx := hp.x_le
  have hrow := v.sizeRow_eq
  rw [deleteChar]
  split
  case isTrue hend =>
    refine ⟨h.vt, fun r hr c hc => ?_⟩
    have hx' := h.x_eq
    rw [h.cells r hr c hc]
    exact (if_neg (by omega)).symm
  case isFalse hlt =>
    have hline := v.addr_eq s.y s.x
    refine h.store fun r hr c hc => ?_
    have heven := v.addr_even r c
    have heven' := v.addr_even s.y s.x
    have hmem := Video.mem_line_iff (v := v) (r := r) (y := s.y) hx hc
    rw [hp.pos_addr, cellAt_deleteLoop _ _ _ (by omega), ← h.x_eq, ← h.y_eq, h.cells r hr c hc]
    by_cases hin : r = s.y ∧ s.x ≤ c
    · rw [if_pos hin, if_pos (by omega)]
      obtain ⟨rfl, hle⟩ := hin
      have haddr := v.addr_eq s.y c
      by_cases hlast : c + 1 < v.cols
      · have hnext : s.origin + v.addr s.y c + 2 = s.origin + v.addr s.y (c + 1) := by
          have := v.addr_eq s.y (c + 1)
          omega
        rw [if_pos hlast, if_pos (by omega), hnext, h.cells _ hr _ hlast]
      · rw [if_neg hlast, if_neg (by omega), h.eraseChar]
    · rw [if_neg hin, if_neg (by omega)]

/-! ### Scrolling -/

theorem moveUp_shows (heven : v.cols % 2 = 0) (hp : s.Placed v) (h : Shows v s t) :
    Shows v (s.moveUp v) (t.scrollUp s.top s.bottom) := by
  have hlt := hp.sound.top_lt
  have hregion := Video.region_addr heven hlt
  have hlast := v.addr_succ (s.bottom - 1) 0
  rw [Nat.sub_add_cancel (by omega)] at hlast
  have hfirst := v.addr_succ s.top 0
  have hrow := v.sizeRow_eq
  refine h.store fun r hr c hc => ?_
  have hpar := v.addr_even r c
  have hpar' := v.addr_even s.top 0
  have hdst : s.origin + v.sizeRow * s.top = s.origin + v.addr s.top 0 := by
    rw [Video.addr_zero, Nat.mul_comm]
  have hsrc : s.origin + v.sizeRow * (s.top + 1) = s.origin + v.addr s.top 0 + v.sizeRow := by
    rw [Nat.add_assoc, ← hfirst, Video.addr_zero, Nat.mul_comm]
  have htop := Video.line_le_iff (v := v) (y := s.top) (r := r) hc
  have hbottom := Video.lt_line_iff (v := v) (y := s.bottom) (r := r) hc
  have hblank := Video.line_le_iff (v := v) (y := s.bottom - 1) (r := r) hc
  have hmem : (s.top ≤ r ∧ r < s.bottom) → r + 1 < s.bottom →
      Screen.cellAt s.mem (s.origin + v.addr r c + v.sizeRow) = t.grid (r + 1) c := by
    intro _ hnext
    have hle := hp.sound.bottom_le
    rw [Nat.add_assoc, ← Video.addr_succ]
    exact h.cells _ (by omega) c hc
  rw [hdst, hsrc, cellAt_stos _ _ _ (by omega), cellAt_movs _ _ (by omega) (by omega),
    Nat.add_sub_cancel_left, h.cells r hr c hc, h.eraseChar]
  -- the line below moves up, and the last line of the region is blank
  by_cases hin : s.top ≤ r ∧ r < s.bottom
  · rw [if_pos hin]
    by_cases hnext : r + 1 < s.bottom
    · rw [if_pos hnext, if_neg (by omega), if_pos (by omega), hmem hin hnext]
    · rw [if_neg hnext, if_pos (by omega)]
  · rw [if_neg hin, if_neg (by omega), if_neg (by omega)]

theorem scrdown_shows (hv : v.Fits) (heven : v.cols % 2 = 0) (hp : s.Placed v) (h : Shows v s t) :
    Shows v (s.scrdown v) (t.scrollDown s.top s.bottom) := by
  have hlt := hp.sound.top_lt
  rw [scrdown, if_neg (Nat.not_le.mpr hlt)]
  have hregion := Video.region_addr heven hlt
  have hlast := v.addr_succ (s.bottom - 1) 0
  rw [Nat.sub_add_cancel (by omega)] at hlast
  have hfirst := v.addr_succ s.top 0
  have hrow := v.sizeRow_eq
  have hcols := hv.cols
  refine h.store fun r hr c hc => ?_
  have hpar := v.addr_even r c
  have hpar' := v.addr_even s.bottom 0
  have hdst : s.origin + v.sizeRow * s.bottom - 4 = s.origin + v.addr s.bottom 0 - 4 := by
    rw [Video.addr_zero, Nat.mul_comm]
  have hsrc : s.origin + v.sizeRow * (s.bottom - 1) - 4 =
      s.origin + v.addr (s.bottom - 1) 0 - 4 := by
    rw [Video.addr_zero, Nat.mul_comm]
  have htop := Video.line_le_iff (v := v) (y := s.top) (r := r) hc
  have hbottom := Video.lt_line_iff (v := v) (y := s.bottom) (r := r) hc
  have hblank := Video.line_le_iff (v := v) (y := s.top + 1) (r := r) hc
  have hmem : (s.top ≤ r ∧ r < s.bottom) → s.top < r →
      Screen.cellAt s.mem (s.origin + v.addr r c - v.sizeRow) = t.grid (r - 1) c := by
    intro _ hprev
    have hsucc := v.addr_succ (r - 1) c
    rw [Nat.sub_add_cancel (by omega)] at hsucc
    have haddr : s.origin + v.addr r c - v.sizeRow = s.origin + v.addr (r - 1) c := by omega
    rw [haddr]
    exact h.cells _ (by omega) c hc
  rw [hdst, hsrc]
  generalize hn : (s.bottom - s.top - 1) * v.cols / 2 = n at hregion ⊢
  rw [cellAt_stosDown _ _ _ (by omega) (by omega)]
  by_cases hin : s.top ≤ r ∧ r < s.bottom
  · rw [if_pos hin]
    by_cases hprev : s.top < r
    · -- the line above was there, one line up in the memory
      have hsub : s.origin + v.addr s.bottom 0 - 4 - (s.origin + v.addr (s.bottom - 1) 0 - 4) =
          v.sizeRow := by
        have : 4 ≤ s.origin + v.addr (s.bottom - 1) 0 := by omega
        omega
      rw [if_pos hprev, if_neg (by omega), cellAt_movsDown _ _ (by omega) (by omega) (by omega),
        if_pos (by omega), hsub, hmem hin hprev]
    · rw [if_neg hprev, if_pos (by omega), h.eraseChar]
  · rw [if_neg hin, if_neg (by omega)]
    by_cases hmoves : n = 0
    · rw [hmoves]
      exact h.cells r hr c hc
    · rw [cellAt_movsDown _ _ (by omega) (by omega) (by omega), if_neg (by omega),
        h.cells r hr c hc]

theorem setOrigin_shows (h : Shows v s t) : Shows v (s.setOrigin v fg) t := by
  have hvc : (s.setOrigin v fg).toVc = s.toVc := setOrigin_toVc s
  refine ⟨(congrArg Vc.toVt hvc).trans h.vt, fun r hr c hc => ?_⟩
  rw [setOrigin_mem, congrArg Vc.origin hvc]
  exact h.cells r hr c hc

/-- The screen moves down in the memory: its lines move up. -/
theorem moved_shows (hp : s.Placed v) (h : Shows v s t) :
    Shows v { s.moved v with mem := stos 2 s.eraseChar.byte v.cols s.mem s.scrEnd }
      (t.scrollUp 0 v.lines) := by
  have hrow := v.sizeRow_eq
  refine ⟨h.vt, fun r hr c hc => ?_⟩
  have haddr : s.origin + v.sizeRow + v.addr r c = s.origin + v.addr (r + 1) c := by
    rw [Video.addr_succ]
    omega
  have hpar := v.addr_even (r + 1) c
  have hpar' := v.addr_even v.lines 0
  have hblank := Video.line_le_iff (v := v) (y := v.lines) (r := r + 1) hc
  have hlast := Video.lt_line_iff (v := v) (y := v.lines + 1) (r := r + 1) hc
  have hsucc := v.addr_succ v.lines 0
  show cellAt (stos 2 s.eraseChar.byte v.cols s.mem s.scrEnd) (s.origin + v.sizeRow + v.addr r c) =
    (t.scrollUp 0 v.lines).grid r c
  rw [haddr, hp.end_addr, cellAt_stos _ _ _ (by omega), t.scrollUp_grid hr]
  by_cases hnext : r + 1 < v.lines
  · rw [if_pos hnext, if_neg (by omega), h.cells _ hnext c hc]
  · rw [if_neg hnext, if_pos (by omega), h.eraseChar]

/-- The same at the end of the memory. -/
theorem wrap_shows (heven : v.cols % 2 = 0) (hp : s.Placed v) (h : Shows v s t) :
    Shows v ((s.moved v).wrap v) (t.scrollUp 0 v.lines) := by
  have hlines : 0 < v.lines := Nat.zero_lt_of_lt hp.y_lt
  have hregion := Video.region_addr heven hlines
  have hlast := v.addr_succ (v.lines - 1) 0
  rw [Nat.sub_add_cancel hlines] at hlast
  have hrow := v.sizeRow_eq
  have hfirst : v.addr (0 + 1) 0 = v.sizeRow := by
    rw [Video.addr_zero, Nat.zero_add, Nat.one_mul]
  refine ⟨h.vt, fun r hr c hc => ?_⟩
  have hpar := v.addr_even r c
  have hpar' := v.addr_even (v.lines - 1) 0
  have hstart := hp.start_le
  have hblank := Video.line_le_iff (v := v) (y := v.lines - 1) (r := r) hc
  have hend := Video.lt_line_iff (v := v) (y := v.lines) (r := r) hc
  show cellAt (stos 2 s.eraseChar.byte v.cols
      (movs 4 ((v.lines - 1) * v.cols / 2) s.mem s.memStart (s.origin + v.sizeRow))
      (s.memStart + 4 * ((v.lines - 1) * v.cols / 2))) (s.memStart + v.addr r c) =
    (t.scrollUp 0 v.lines).grid r c
  rw [Nat.sub_zero] at hregion
  -- the move is one of long words, each of two cells
  generalize (v.lines - 1) * v.cols / 2 = n at hregion ⊢
  rw [cellAt_stos _ _ _ (by omega), t.scrollUp_grid hr]
  by_cases hnext : r + 1 < v.lines
  · have haddr : s.memStart + v.addr r c + (s.origin + v.sizeRow - s.memStart) =
        s.origin + v.addr (r + 1) c := by
      rw [Video.addr_succ]
      omega
    rw [if_pos hnext, if_neg (by omega), cellAt_movs _ _ (by omega) (by omega), if_pos (by omega),
      haddr, h.cells _ hnext c hc]
  · rw [if_neg hnext, if_pos (by omega)]
    exact h.eraseChar

/-- However the adapter scrolls. -/
theorem scrup_shows (heven : v.cols % 2 = 0) (hp : s.Placed v) (h : Shows v s t) :
    Shows v (s.scrup v fg) (t.scrollUp s.top s.bottom) := by
  rw [scrup, if_neg (Nat.not_le.mpr hp.sound.top_lt)]
  split
  case isFalse => exact moveUp_shows heven hp h
  case isTrue hfull =>
    obtain ⟨htop, hbottom⟩ := of_decide_eq_true (Bool.and_eq_true_iff.mp hfull).2
    rw [htop, hbottom]
    dsimp only
    split
    case isTrue => exact setOrigin_shows (wrap_shows heven hp h)
    case isFalse =>
      rw [Nat.add_sub_cancel]
      exact setOrigin_shows (moved_shows hp h)

/-! ### The cursor -/

theorem gotoxy_shows (h : Shows v s t) (newX newY : BitVec 32) :
    Shows v (s.gotoxy v newX newY) (t.gotoxy v newX newY) := by
  rw [gotoxy, Terminal.gotoxy]
  split
  · exact h
  · exact h.cursor (fun vt => { vt with x := newX.toNat, y := newY.toNat })

theorem lf_shows (heven : v.cols % 2 = 0) (hp : s.Placed v) (h : Shows v s t) :
    Shows v (s.lf v fg) t.lf := by
  have hy := h.y_eq
  have hbottom := h.bottom_eq
  rw [lf, Terminal.lf]
  by_cases hlt : s.y + 1 < s.bottom
  · rw [if_pos hlt, if_pos (by omega)]
    exact h.cursor (fun vt => { vt with y := vt.y + 1 })
  · rw [if_neg hlt, if_neg (by omega), ← h.top_eq, ← hbottom]
    exact scrup_shows heven hp h

theorem ri_shows (hv : v.Fits) (heven : v.cols % 2 = 0) (hp : s.Placed v) (h : Shows v s t) :
    Shows v (s.ri v) t.ri := by
  have hy := h.y_eq
  have htop := h.top_eq
  rw [ri, Terminal.ri]
  by_cases hlt : s.top < s.y
  · rw [if_pos hlt, if_pos (by omega)]
    exact h.cursor (fun vt => { vt with y := vt.y - 1 })
  · rw [if_neg hlt, if_neg (by omega), ← htop, ← h.bottom_eq]
    exact scrdown_shows hv heven hp h

theorem cr_shows (h : Shows v s t) : Shows v s.cr { t with x := 0 } :=
  h.cursor (fun vt => { vt with x := 0 })

theorem back_shows (h : Shows v s t) : Shows v s.back { t with x := t.x - 1 } := by
  have hmoved : Shows v { s with x := s.x - 1, pos := s.pos - 2 } { t with x := t.x - 1 } :=
    h.cursor (fun vt => { vt with x := vt.x - 1 })
  rw [back]
  split
  case isTrue hx =>
    have hvt : s.toVt = { s.toVt with x := s.x - 1 } := by
      rw [hx, Nat.zero_sub, ← hx]
    exact ⟨hvt.trans hmoved.vt, hmoved.cells⟩
  case isFalse => exact hmoved

theorem del_shows (hp : s.Placed v) (h : Shows v s t) : Shows v s.del t.del := by
  obtain ⟨vt, grid⟩ := t
  obtain rfl : s.toVt = vt := h.vt
  rw [del, Terminal.del]
  split
  case isTrue => exact h
  case isFalse hzero =>
    have hpos : s.pos - 2 = s.origin + v.addr s.y (s.x - 1) := by
      have := hp.pos_eq
      rw [Video.addr]
      omega
    have hle := hp.x_le
    have hput := h.putCell (y := s.y) (x := s.x - 1) (by omega) s.eraseChar
    rw [hpos]
    exact hput.cursor fun vt => { vt with x := vt.x - 1 }

theorem newLine_shows (heven : v.cols % 2 = 0) (hp : s.Placed v) (h : Shows v s t) {x pos : ℕ}
    (hlo : v.cols ≤ x) (hhi : x ≤ 2 * v.cols) (hpos : pos = s.origin + s.y * v.sizeRow + x * 2) :
    Shows v ({ s with x := x, pos := pos }.newLine v fg) ({ t with x := x }.newLine v) := by
  have hrow := v.sizeRow_eq
  have hplaced : Placed v { s with x := x - v.cols, pos := pos - v.sizeRow } :=
    hp.cursor (by omega) hp.y_lt (by omega)
  exact lf_shows heven hplaced (h.cursor fun vt => { vt with x := x - v.cols })

/-- A character is stored where the cursor is. -/
theorem store_shows (hp : s.Placed v) (h : Shows v s t) (hx : s.x < v.cols) (glyph : BitVec 8) :
    Shows v
      { s with
        mem := BlockMoves.put 2 (Cell.mk glyph s.attr).byte s.mem s.pos
        pos := s.pos + 2
        x := s.x + 1 }
      { t.setCell t.y t.x ⟨glyph, t.attr⟩ with x := t.x + 1 } := by
  obtain ⟨vt, grid⟩ := t
  obtain rfl : s.toVt = vt := h.vt
  rw [hp.pos_addr]
  exact (h.putCell (y := s.y) hx ⟨glyph, s.attr⟩).cursor fun vt => { vt with x := vt.x + 1 }

theorem put_shows (hv : v.Fits) (heven : v.cols % 2 = 0) (hp : s.Placed v) (h : Shows v s t)
    (glyph : BitVec 8) : Shows v (s.put v fg glyph) (t.put v glyph) := by
  have hcols := hv.cols
  have hle := hp.x_le
  obtain ⟨vt, grid⟩ := t
  obtain rfl : s.toVt = vt := h.vt
  rw [put, Terminal.put]
  dsimp only
  split
  case isFalse hlt => exact store_shows hp h (Nat.not_le.mp hlt) glyph
  case isTrue hend =>
    refine store_shows (newLine_safe hp hend (by omega) hp.pos_eq).placed
      (newLine_shows heven hp h hend (by omega) hp.pos_eq) ?_ glyph
    rw [newLine_x]
    show s.x - v.cols < v.cols
    omega

theorem tab_shows (hv : v.Fits) (heven : v.cols % 2 = 0) (hp : s.Placed v) (h : Shows v s t) :
    Shows v (s.tab v fg) (t.tab v) := by
  have hcols := hv.cols
  have hle := hp.x_le
  have hpos := hp.pos_eq
  obtain ⟨vt, grid⟩ := t
  obtain rfl : s.toVt = vt := h.vt
  rw [tab, Terminal.tab]
  dsimp only
  split
  case isTrue hlt => exact newLine_shows heven hp h (Nat.le_of_lt hlt) (by omega) (by omega)
  case isFalse => exact h.cursor fun vt => { vt with x := vt.x + (8 - vt.x % 8) }

/-! ### All actions -/

/-- `f` with a region of the screen, which is set for it only. -/
theorem withRegion_shows (hp : s.Placed v) (h : Shows v s t) {f : Screen → Screen}
    {g : Terminal → ℕ → ℕ → Terminal}
    (hg : ∀ (t : Terminal) top bottom, (g t top bottom).toVt = t.toVt)
    (hgrid : ∀ (t : Terminal) vt top bottom, vt.eraseChar = t.eraseChar →
      (g { t with toVt := vt } top bottom).grid = (g t top bottom).grid)
    (hf : ∀ {s' t'}, s'.Placed v → Shows v s' t' → Shows v (f s') (g t' s'.top s'.bottom)) :
    Shows v (s.withRegion v f) (g t t.y v.lines) := by
  obtain ⟨vt, grid⟩ := t
  obtain rfl : s.toVt = vt := h.vt
  have hregion := hf hp.region (h.cursor fun vt => { vt with top := vt.y, bottom := v.lines })
  have hvt := hregion.vt.trans (hg _ _ _)
  refine ⟨?_, fun r hr c hc => ?_⟩
  · rw [hg]
    show { (f { s with top := s.y, bottom := v.lines }).toVt with
      top := s.top, bottom := s.bottom } = _
    rw [hvt]
  · refine (hregion.cells r hr c hc).trans ?_
    rw [hgrid]
    rfl

theorem iterate_shows {f : Screen → Screen} {g : Terminal → Terminal}
    (hsafe : ∀ s : Screen, s.Placed v → s.Safe v (f s))
    (hf : ∀ {s t}, s.Placed v → Shows v s t → Shows v (f s) (g t)) (n : ℕ) (hp : s.Placed v)
    (h : Shows v s t) : Shows v (f^[n] s) (g^[n] t) := by
  induction n generalizing s t with
  | zero => exact h
  | succ n ih => exact ih (hsafe s hp).placed (hf hp h)

/-- Every action does on the screen what it means. -/
theorem perform_shows (hv : v.Fits) (heven : v.cols % 2 = 0) (hp : s.Placed v) (h : Shows v s t)
    (a : Action) : Shows v (s.perform v fg a) (t.perform v a) := by
  cases a with
  | stay => exact h
  | gotoxy newX newY => exact gotoxy_shows h newX newY
  | lf => exact lf_shows heven hp h
  | ri => exact ri_shows hv heven hp h
  | cr => exact cr_shows h
  | del => exact del_shows hp h
  | put glyph => exact put_shows hv heven hp h glyph
  | back => exact back_shows h
  | tab => exact tab_shows hv heven hp h
  | csiJ vpar => exact csiJ_shows hp h vpar
  | csiK vpar => exact csiK_shows hp h vpar
  | csiAt nr => exact iterate_shows (fun _ => insertChar_safe) insertChar_shows _ hp h
  | csiP nr => exact iterate_shows (fun _ => deleteChar_safe) deleteChar_shows _ hp h
  | csiL nr =>
    refine iterate_shows (fun _ hp => withRegion_safe hp fun _ => scrdown_safe hv) ?_ _ hp h
    intro s t hp h
    exact withRegion_shows hp h (g := Terminal.scrollDown) (fun _ _ _ => rfl)
      (fun t vt top bottom he => by rw [Terminal.scrollDown, Terminal.scrollDown, he])
      (scrdown_shows hv heven)
  | csiM nr =>
    refine iterate_shows (fun _ hp => withRegion_safe hp fun _ => scrup_safe) ?_ _ hp h
    intro s t hp h
    exact withRegion_shows hp h (g := Terminal.scrollUp) (fun _ _ _ => rfl)
      (fun t vt top bottom he => by rw [Terminal.scrollUp, Terminal.scrollUp, he])
      (scrup_shows heven)

/-- A character that is written to a console is written to its terminal. -/
theorem write_shows (hv : v.Fits) (heven : v.cols % 2 = 0) (hp : s.Placed v) (h : Shows v s t)
    (erase c : BitVec 8) : Shows v (s.write v fg erase c) (t.write v erase c) := by
  obtain ⟨vt, grid⟩ := t
  obtain rfl : s.toVt = vt := h.vt
  exact perform_shows hv heven (interpret_safe hv hp erase c).placed
    (h.cursor fun vt => (vt.interpret v erase c).1) _

theorem print_shows (hv : v.Fits) (heven : v.cols % 2 = 0) (hp : s.Placed v) (h : Shows v s t)
    (c : BitVec 8) : Shows v (s.print v fg c) (t.print v c) := by
  rw [print, Terminal.print]
  split
  · exact lf_shows heven (cr_safe hp).placed (cr_shows h)
  split
  · exact cr_shows h
  · exact put_shows hv heven hp h c

/-- Characters with the erase characters they come with. -/
def writeAll (v : Video) (fg : Bool) (s : Screen) (cs : List (BitVec 8 × BitVec 8)) : Screen :=
  cs.foldl (fun s c => s.write v fg c.1 c.2) s

theorem writeAll_shows (hv : v.Fits) (heven : v.cols % 2 = 0) (hp : s.Placed v) (h : Shows v s t)
    (cs : List (BitVec 8 × BitVec 8)) :
    Shows v (s.writeAll v fg cs) (cs.foldl (fun t c => t.write v c.1 c.2) t) := by
  induction cs generalizing s t with
  | nil => exact h
  | cons c cs ih =>
    exact ih (write_safe hv hp c.1 c.2).placed (write_shows hv heven hp h c.1 c.2)

end Screen

/-! ### Two adapters -/

theorem Vt.interpret_congr {w : Video} (hlines : w.lines = v.lines)
    (hcolour : w.canDoColour = v.canDoColour) (erase : BitVec 8) (vt : Vt) (c : BitVec 8) :
    vt.interpret w erase c = vt.interpret v erase c := by
  have hpar : ∀ (vt : Vt) (p : BitVec 32), vt.csiMPar w p = vt.csiMPar v p := by
    intro vt p
    rw [csiMPar, csiMPar, hcolour]
  have hsgr : ∀ vt : Vt, vt.csiSgr w = vt.csiSgr v := by
    intro vt
    rw [csiSgr, csiSgr]
    simp only [hpar]
  have hregion : ∀ vt : Vt, vt.csiR w = vt.csiR v := by
    intro vt
    rw [csiR, csiR, hlines]
  have hgot : ∀ (vt : Vt) (c : BitVec 8), vt.gotPars w c = vt.gotPars v c := by
    intro vt c
    rw [gotPars, gotPars, hsgr, hregion]
  have hget : ∀ (vt : Vt) (c : BitVec 8), vt.getPars w c = vt.getPars v c := by
    intro vt c
    rw [getPars, getPars, hgot]
  have hescape : ∀ (vt : Vt) (c : BitVec 8), vt.escape w c = vt.escape v c := by
    intro vt c
    rw [escape, escape, hlines]
  rw [interpret, interpret]
  dsimp only
  generalize (if c = 24 ∨ c = 26 then { vt with state := State.ESnormal } else vt) = vt
  cases vt.state with
  | ESnormal => rfl
  | ESesc => exact hescape vt c
  | ESsquare =>
    dsimp only
    rw [hget]
  | ESgetpars => exact hget vt c
  | ESgotpars => exact hgot vt c
  | ESfunckey => rfl
  | ESsetterm => rfl
  | ESsetgraph => rfl
  | hash => rfl

theorem Terminal.perform_congr {w : Video} (hcols : w.cols = v.cols) (hlines : w.lines = v.lines)
    (t : Terminal) (a : Action) : t.perform w a = t.perform v a := by
  have hnew : ∀ t : Terminal, t.newLine w = t.newLine v := by
    intro t
    rw [newLine, newLine, hcols]
  have hdelete : deleteChar w = deleteChar v := by
    funext t
    rw [deleteChar, deleteChar, hcols]
  cases a with
  | gotoxy newX newY => rw [perform, perform, gotoxy, gotoxy, hcols, hlines]
  | put glyph => rw [perform, perform, put, put, hcols, hnew]
  | tab => rw [perform, perform, tab, tab, hcols, hnew]
  | csiAt nr => rw [perform, perform, hcols]
  | csiP nr => rw [perform, perform, hcols, hdelete]
  | csiL nr => rw [perform, perform, hlines]
  | csiM nr => rw [perform, perform, hlines]
  | _ => rfl

theorem Terminal.write_congr {w : Video} (hcols : w.cols = v.cols) (hlines : w.lines = v.lines)
    (hcolour : w.canDoColour = v.canDoColour) (erase : BitVec 8) (t : Terminal) (c : BitVec 8) :
    t.write w erase c = t.write v erase c := by
  rw [write, write, Vt.interpret_congr hlines hcolour]
  exact perform_congr hcols hlines _ _

/-- A console that scrolls by a move of its origin and one that scrolls by copies show the same
after the same characters: they have the same fields, the cursor among them, and the same cells. -/
theorem scrolling_agrees (v w : Video) (hv : v.Fits) (hw : w.Fits) (heven : v.cols % 2 = 0)
    (hcols : w.cols = v.cols) (hlines : w.lines = v.lines)
    (hcolour : w.canDoColour = v.canDoColour) (fg fg' : Bool) (s s' : Screen) (hp : s.Placed v)
    (hp' : s'.Placed w) (hvt : s'.toVt = s.toVt)
    (hcells : ∀ r < v.lines, ∀ c < v.cols, Screen.cellAt s'.mem (s'.origin + v.addr r c) =
      Screen.cellAt s.mem (s.origin + v.addr r c)) (cs : List (BitVec 8 × BitVec 8)) :
    (s'.writeAll w fg' cs).toVt = (s.writeAll v fg cs).toVt ∧
      ∀ r < v.lines, ∀ c < v.cols,
        Screen.cellAt (s'.writeAll w fg' cs).mem ((s'.writeAll w fg' cs).origin + v.addr r c) =
          Screen.cellAt (s.writeAll v fg cs).mem ((s.writeAll v fg cs).origin + v.addr r c) := by
  have haddr : w.addr = v.addr := by
    funext r c
    rw [Video.addr, Video.addr, w.sizeRow_eq, v.sizeRow_eq, hcols]
  have hwrite : ∀ (t : Terminal) (c : BitVec 8 × BitVec 8),
      t.write w c.1 c.2 = t.write v c.1 c.2 :=
    fun t c => Terminal.write_congr hcols hlines hcolour c.1 t c.2
  -- the terminal that both stand for
  obtain ⟨t, ht⟩ : ∃ t : Terminal, t = ⟨s.toVt, fun r c =>
    Screen.cellAt s.mem (s.origin + v.addr r c)⟩ := ⟨_, rfl⟩
  have hshows : Shows v s t := by
    rw [ht]
    exact ⟨rfl, fun _ _ _ _ => rfl⟩
  have hshows' : Shows w s' t := by
    rw [ht]
    refine ⟨hvt, fun r hr c hc => ?_⟩
    rw [haddr]
    exact hcells r (hlines ▸ hr) c (hcols ▸ hc)
  have hrun : Shows v (s.writeAll v fg cs) _ := Screen.writeAll_shows hv heven hp hshows cs
  have hrun' : Shows w (s'.writeAll w fg' cs) _ :=
    Screen.writeAll_shows hw (by rw [hcols]; exact heven) hp' hshows' cs
  simp only [hwrite] at hrun'
  refine ⟨hrun'.vt.trans hrun.vt.symm, fun r hr c hc => ?_⟩
  have hcell := hrun'.cells r (hlines.symm ▸ hr) c (hcols.symm ▸ hc)
  rw [haddr] at hcell
  exact hcell.trans (hrun.cells r hr c hc).symm

/-- The first console on a colour screen, and the same on an older adapter. -/
theorem scrolling_agrees_vga :
    (((Consoles.conInit vga 0 0 fun _ => 0).screen 0).writeAll ⟨.CGA, 80, 25⟩ false
        [(127, 10), (127, 65)]).toVt =
      (((Consoles.conInit vga 0 0 fun _ => 0).screen 0).writeAll vga true
        [(127, 10), (127, 65)]).toVt := by
  have hv : vga.Fits := ⟨by decide, by decide, by decide, by decide⟩
  have hcursor : Consoles.CursorIn vga 0 0 := ⟨by decide, by decide⟩
  have hp := (Consoles.conInit_fitted hv hcursor fun _ => 0).placed 0 (by decide)
  exact (scrolling_agrees vga ⟨.CGA, 80, 25⟩ hv ⟨by decide, by decide, by decide, by decide⟩
    (by decide) rfl rfl rfl true false _ _ hp
    ⟨⟨hp.sound.top_lt, hp.sound.bottom_le, hp.sound.npar_le⟩, hp.x_le, hp.y_lt, hp.pos_eq,
      hp.scrEnd_eq, hp.start_le, hp.end_le⟩ rfl (fun _ _ _ _ => rfl) _).1

/-! ### All terminals -/

/-- A terminal for each console; nothing that is written to one reaches another. -/
structure Terminals where
  term : ℕ → Terminal
  fg : ℕ

def Terminals.step (v : Video) (t : Terminals) : Event → Terminals
  | .write i erase c =>
    if i < v.NR_CONSOLES then { t with term := update t.term i ((t.term i).write v erase c) } else t
  | .print c => { t with term := update t.term t.fg ((t.term t.fg).print v c) }
  | .change i => if v.NR_CONSOLES ≤ i then t else { t with fg := i }

/-- What the consoles show now. -/
def Consoles.terminals (v : Video) (s : Consoles) : Terminals where
  term i := ⟨(s.vc i).toVt, fun r c => Screen.cellAt s.mem ((s.vc i).origin + v.addr r c)⟩
  fg := s.fg

/-- Every console shows its terminal. -/
structure Consoles.AllShow (v : Video) (s : Consoles) (t : Terminals) : Prop where
  fg : t.fg = s.fg
  shows : ∀ i < v.NR_CONSOLES, Shows v (s.screen i) (t.term i)

theorem Video.Owns.unique {i j a : ℕ} (hi : v.Owns i a) (hj : v.Owns j a) : i = j := by
  have hle : ∀ {i j : ℕ}, i < j → (i + 1) * v.memory ≤ j * v.memory := fun hlt =>
    Nat.mul_le_mul_right _ hlt
  rcases Nat.lt_trichotomy i j with hlt | heq | hlt
  · have := hle hlt
    have := hi.2
    have := hj.1
    omega
  · exact heq
  · have := hle hlt
    have := hj.2
    have := hi.1
    omega

namespace Consoles

variable {s : Consoles} {t : Terminals}

/-- The cells of a console are in its memory. -/
theorem Fitted.owns (h : s.Fitted v) {i : ℕ} (hi : i < v.NR_CONSOLES) (hr : r < v.lines)
    (hc : c < v.cols) :
    v.Owns i ((s.vc i).origin + v.addr r c) ∧ v.Owns i ((s.vc i).origin + v.addr r c + 1) := by
  have hp := h.placed i hi
  have hend : (s.vc i).scrEnd = (s.vc i).origin + v.addr v.lines 0 := hp.end_addr
  have hstart : (s.vc i).memStart ≤ (s.vc i).origin := hp.start_le
  have hle : (s.vc i).scrEnd ≤ (s.vc i).memEnd := hp.end_le
  have hmem := h.memStart i hi
  have hmem' := h.memEnd i hi
  have hlt := (Video.lt_line_iff (v := v) (y := v.lines) hc).mpr hr
  have heven := v.addr_even r c
  have heven' := v.addr_even v.lines 0
  rw [Video.Owns, Video.Owns]
  omega

/-- The console `i` is written, and its terminal. -/
theorem AllShow.put (hf : s.Fitted v) (h : s.AllShow v t) {i : ℕ} (hi : i < v.NR_CONSOLES)
    {u : Screen} {w : Terminal} (hsafe : (s.screen i).Safe v u) (hu : Shows v u w) :
    (s.put i u).AllShow v { t with term := update t.term i w } := by
  refine ⟨h.fg, fun j hj => ?_⟩
  by_cases hji : j = i
  · rw [hji, screen_put_self]
    show Shows v u (update t.term i w i)
    rw [Function.update_self]
    exact hu
  · -- another console, whose cells are in its own memory
    have hvc : (s.put i u).vc j = s.vc j := vc_put_of_ne s hji u
    show Shows v ((s.put i u).screen j) (update t.term i w j)
    rw [Function.update_of_ne hji]
    have hsame : ∀ a, v.Owns j a → u.mem a = s.mem a := fun a ha =>
      (hf.write hi hsafe).2 a fun howns => hji (ha.unique howns)
    refine ⟨(congrArg Vc.toVt hvc).trans (h.shows j hj).vt, fun r hr c hc => ?_⟩
    obtain ⟨hchar, hattr⟩ := hf.owns hj hr hc
    rw [show ((s.put i u).screen j).origin = (s.vc j).origin from congrArg Vc.origin hvc]
    rw [← (h.shows j hj).cells r hr c hc]
    exact cellAt_congr (hsame _ hchar) (hsame _ hattr)

theorem AllShow.step (hv : v.Fits) (heven : v.cols % 2 = 0) (hf : s.Fitted v) (h : s.AllShow v t)
    (e : Event) : (s.step v e).AllShow v (t.step v e) := by
  cases e with
  | write i erase c =>
    rw [Consoles.step, Terminals.step]
    split
    case isFalse => exact h
    case isTrue hi =>
      have hp := hf.placed i hi
      exact h.put hf hi (Screen.write_safe hv hp erase c)
        (Screen.write_shows hv heven hp (h.shows i hi) erase c)
  | print c =>
    have hp := hf.placed s.fg hf.fg_lt
    obtain ⟨term, fg⟩ := t
    obtain rfl : fg = s.fg := h.fg
    exact h.put hf hf.fg_lt (Screen.print_safe hv hp c)
      (Screen.print_shows hv heven hp (h.shows s.fg hf.fg_lt) c)
  | change i =>
    rw [Consoles.step, Terminals.step]
    by_cases hsame : i = s.fg
    · have hlt := hf.fg_lt
      rw [if_pos (.inl hsame), if_neg (by omega)]
      exact ⟨hsame, h.shows⟩
    by_cases hbad : v.NR_CONSOLES ≤ i
    · rw [if_pos (.inr hbad), if_pos hbad]
      exact h
    · rw [if_neg (not_or.mpr ⟨hsame, hbad⟩), if_neg hbad]
      exact ⟨rfl, fun j hj => ⟨(h.shows j hj).vt, (h.shows j hj).cells⟩⟩

theorem AllShow.run (hv : v.Fits) (heven : v.cols % 2 = 0) (hf : s.Fitted v) (h : s.AllShow v t)
    (es : List Event) :
    (es.foldl (Consoles.step v) s).AllShow v (es.foldl (Terminals.step v) t) := by
  induction es generalizing s t with
  | nil => exact h
  | cons e es ih => exact ih (hf.step hv e).1 (h.step hv heven hf e)

end Consoles

/-- Whatever is written to the consoles, and printed: each shows what the terminal of its own
would show, which has got the characters for this console only, however the adapter scrolls. -/
theorem virtual_terminals (v : Video) (hv : v.Fits) (heven : v.cols % 2 = 0)
    (origX origY : BitVec 8) (hc : Consoles.CursorIn v origX origY) (m : ℕ → BitVec 8)
    (es : List Event) :
    (es.foldl (Consoles.step v) (Consoles.conInit v origX origY m)).AllShow v
      (es.foldl (Terminals.step v) ((Consoles.conInit v origX origY m).terminals v)) :=
  Consoles.AllShow.run hv heven (Consoles.conInit_fitted hv hc m)
    ⟨rfl, fun _ _ => ⟨rfl, fun _ _ _ _ => rfl⟩⟩ es

theorem virtual_terminals_vga :
    (([.write 0 127 65, .print 66, .write 1 127 67] : List Event).foldl (Consoles.step vga)
      (Consoles.conInit vga 0 0 fun _ => 0)).AllShow vga
      (([.write 0 127 65, .print 66, .write 1 127 67] : List Event).foldl (Terminals.step vga)
        ((Consoles.conInit vga 0 0 fun _ => 0).terminals vga)) :=
  virtual_terminals vga ⟨by decide, by decide, by decide, by decide⟩ (by decide) 0 0
    ⟨by decide, by decide⟩ _ _

end Console
