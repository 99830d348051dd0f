/-
A console keeps to its own part of the video memory.

* `Placed` — the cursor is on the screen, or behind the end of a line, and the screen is in the
  memory of the console;
* `Safe` — what a function of console.c does to a console: it stays placed, and no byte
  outside its memory changes;
* `conInit_fitted`, `Fitted.step` — the consoles, from `con_init` on;
* `console_memory` — all runs.
-/
import Linux012.Console
import Linux012.Runs

namespace Console

open Function (update)
open BlockMoves

/-- A geometry with at least eight columns, and a screen that fits in the memory. -/
structure Video.Fits (v : Video) : Prop where
  cols : 8 ≤ v.cols
  lines : 0 < v.lines
  /-- both are bytes -/
  bytes : v.cols < 256 ∧ v.lines < 256
  memory : v.lines * v.sizeRow ≤ v.memTerm - v.memBase

/-- The scrolling region is one, and the parameters are in their array. -/
structure Vt.Sound (v : Video) (s : Vt) : Prop where
  top_lt : s.top < s.bottom
  bottom_le : s.bottom ≤ v.lines
  npar_le : s.npar ≤ 15

structure Screen.Placed (v : Video) (s : Screen) : Prop where
  sound : s.toVt.Sound v
  x_le : s.x ≤ v.cols
  y_lt : s.y < v.lines
  pos_eq : s.pos = s.origin + s.y * v.sizeRow + s.x * 2
  scrEnd_eq : s.scrEnd = s.origin + v.lines * v.sizeRow
  start_le : s.memStart ≤ s.origin
  end_le : s.scrEnd ≤ s.memEnd

/-- Only bytes of the console's memory change. -/
structure Screen.Frame (s s' : Screen) : Prop where
  memStart : s'.memStart = s.memStart
  memEnd : s'.memEnd = s.memEnd
  bytes : ∀ a, a < s.memStart ∨ s.memEnd ≤ a → s'.mem a = s.mem a

/-- The console stays placed, in its memory. -/
structure Screen.Safe (v : Video) (s s' : Screen) : Prop where
  placed : s'.Placed v
  frame : s.Frame s'

variable {v : Video} {s s' s'' : Screen} {fg : Bool}

namespace Screen

theorem Frame.refl (s : Screen) : s.Frame s := ⟨rfl, rfl, fun _ _ => rfl⟩

theorem Frame.trans (h : s.Frame s') (h' : s'.Frame s'') : s.Frame s'' where
  memStart := h'.memStart.trans h.memStart
  memEnd := h'.memEnd.trans h.memEnd
  bytes a ha := (h'.bytes a (h.memStart ▸ h.memEnd ▸ ha)).trans (h.bytes a ha)

theorem Safe.trans (h : s.Safe v s') (h' : s'.Safe v s'') : s.Safe v s'' :=
  ⟨h'.placed, h.frame.trans h'.frame⟩

theorem Placed.safe (h : s.Placed v) : s.Safe v s := ⟨h, .refl s⟩

/-- A step that moves nothing but the cursor. -/
theorem Safe.of_cursor (h : s'.Placed v) (hm : s'.mem = s.mem) (hs : s'.memStart = s.memStart)
    (he : s'.memEnd = s.memEnd) : s.Safe v s' :=
  ⟨h, hs, he, fun a _ => congrFun hm a⟩

/-- A step that only stores in the memory. -/
theorem Placed.store (h : s.Placed v) {m : ℕ → BitVec 8}
    (hm : ∀ a, a < s.memStart ∨ s.memEnd ≤ a → m a = s.mem a) : s.Safe v { s with mem := m } :=
  ⟨⟨h.sound, h.x_le, h.y_lt, h.pos_eq, h.scrEnd_eq, h.start_le, h.end_le⟩, rfl, rfl, hm⟩

/-- The line of the cursor is on the screen. -/
theorem Placed.line_le (h : s.Placed v) : s.y * v.sizeRow + v.sizeRow ≤ v.lines * v.sizeRow := by
  rw [← Nat.succ_mul]
  exact Nat.mul_le_mul_right _ h.y_lt

/-- The numbers of a console that is placed. -/
theorem Placed.layout (h : s.Placed v) : v.sizeRow = v.cols * 2 ∧
    s.y * v.sizeRow + v.sizeRow ≤ v.lines * v.sizeRow ∧ s.x ≤ v.cols ∧
    s.pos = s.origin + s.y * v.sizeRow + s.x * 2 ∧ s.scrEnd = s.origin + v.lines * v.sizeRow ∧
    s.memStart ≤ s.origin ∧ s.scrEnd ≤ s.memEnd :=
  ⟨rfl, h.line_le, h.x_le, h.pos_eq, h.scrEnd_eq, h.start_le, h.end_le⟩

/-- The cursor moves. -/
theorem Placed.cursor (h : s.Placed v) {x y pos : ℕ} (hx : x ≤ v.cols) (hy : y < v.lines)
    (hpos : pos = s.origin + y * v.sizeRow + x * 2) :
    Placed v { s with x := x, y := y, pos := pos } :=
  ⟨⟨h.sound.top_lt, h.sound.bottom_le, h.sound.npar_le⟩, hx, hy, hpos, h.scrEnd_eq, h.start_le,
    h.end_le⟩

theorem Placed.go (h : s.Placed v) {x y pos : ℕ} (hx : x ≤ v.cols) (hy : y < v.lines)
    (hpos : pos = s.origin + y * v.sizeRow + x * 2) :
    s.Safe v { s with x := x, y := y, pos := pos } :=
  .of_cursor (h.cursor hx hy hpos) rfl rfl rfl

theorem setOrigin_toVc (s : Screen) : (s.setOrigin v fg).toVc = s.toVc := by
  rw [setOrigin]
  split <;> rfl

theorem setOrigin_mem (s : Screen) : (s.setOrigin v fg).mem = s.mem := by
  rw [setOrigin]
  split <;> rfl

theorem Placed.congr (h : s.Placed v) (hc : s'.toVc = s.toVc) : s'.Placed v := by
  obtain ⟨vc, mem, start⟩ := s
  obtain ⟨vc', mem', start'⟩ := s'
  obtain rfl : vc' = vc := hc
  exact ⟨h.sound, h.x_le, h.y_lt, h.pos_eq, h.scrEnd_eq, h.start_le, h.end_le⟩

theorem setOrigin_safe (h : s.Placed v) : s.Safe v (s.setOrigin v fg) :=
  .of_cursor (h.congr (setOrigin_toVc s)) (setOrigin_mem s)
    (congrArg Vc.memStart (setOrigin_toVc s)) (congrArg Vc.memEnd (setOrigin_toVc s))

/-! ### Stores -/

theorem erase_safe (h : s.Placed v) {count p : ℕ} (hlo : s.memStart ≤ p)
    (hhi : p + 2 * count ≤ s.memEnd) : s.Safe v (s.erase count p) := by
  refine h.store fun a ha => ?_
  rw [stos_apply, if_neg (by omega)]

/-- `count` cells from `p` on are on the screen. -/
theorem erase_screen (h : s.Placed v) {count p : ℕ} (hlo : s.origin ≤ p)
    (hhi : p + 2 * count ≤ s.scrEnd) : s.Safe v (s.erase count p) :=
  erase_safe h (Nat.le_trans h.start_le hlo) (Nat.le_trans hhi h.end_le)

theorem putCell_safe (h : s.Placed v) {p : ℕ} (c : Cell) (hlo : s.origin ≤ p)
    (hhi : p + 2 ≤ s.scrEnd) : s.Safe v { s with mem := BlockMoves.put 2 c.byte s.mem p } := by
  refine h.store fun a ha => ?_
  have hlay := h.layout
  exact put_of_not_mem (by omega)

theorem insertLoop_apply (n : ℕ) (m : ℕ → BitVec 8) (p : ℕ) (old : Cell) {a : ℕ}
    (ha : a < p ∨ p + 2 * n ≤ a) : insertLoop n m p old a = m a := by
  induction n generalizing m p old with
  | zero => rfl
  | succ n ih =>
    rw [insertLoop, ih _ _ _ (by omega)]
    exact put_of_not_mem (by omega)

theorem deleteLoop_apply (blank : Cell) (n : ℕ) (m : ℕ → BitVec 8) (p : ℕ) {a : ℕ}
    (ha : a < p ∨ p + 2 * (n + 1) ≤ a) : deleteLoop blank n m p a = m a := by
  induction n generalizing m p with
  | zero => exact put_of_not_mem (by omega)
  | succ n ih =>
    rw [deleteLoop, ih _ _ (by omega)]
    exact put_of_not_mem (by omega)

theorem insertChar_safe (h : s.Placed v) : s.Safe v (s.insertChar v) := by
  refine h.store fun a ha => ?_
  have hlay := h.layout
  exact insertLoop_apply _ _ _ _ (by omega)

theorem deleteChar_safe (h : s.Placed v) : s.Safe v (s.deleteChar v) := by
  rw [deleteChar]
  split
  case isTrue => exact h.safe
  case isFalse hx =>
    refine h.store fun a ha => ?_
    have hlay := h.layout
    exact deleteLoop_apply _ _ _ _ (by omega)

/-! ### Scrolling -/

/-- The lines of a region: those that move, and the blank one. -/
theorem region_bytes (v : Video) {top bottom : ℕ} (h : top < bottom) :
    4 * ((bottom - top - 1) * v.cols / 2) ≤ (bottom - top - 1) * v.sizeRow ∧
      v.sizeRow * top + (bottom - top - 1) * v.sizeRow + v.sizeRow = v.sizeRow * bottom := by
  obtain ⟨k, rfl⟩ : ∃ k, bottom = top + k + 1 := ⟨bottom - top - 1, by omega⟩
  have hk : top + k + 1 - top - 1 = k := by omega
  have hrow : k * v.sizeRow = k * v.cols * 2 := (Nat.mul_assoc _ _ _).symm
  rw [hk]
  refine ⟨by omega, ?_⟩
  rw [Nat.mul_add, Nat.mul_add, Nat.mul_one, Nat.mul_comm k]

theorem moveUp_safe (h : s.Placed v) : s.Safe v (s.moveUp v) := by
  refine h.store fun a ha => ?_
  obtain ⟨hn, hregion⟩ := region_bytes v h.sound.top_lt
  have hlines : v.sizeRow * s.bottom ≤ v.lines * v.sizeRow := by
    rw [Nat.mul_comm]
    exact Nat.mul_le_mul_right _ h.sound.bottom_le
  have hrow : v.sizeRow = v.cols * 2 := rfl
  have hup : v.sizeRow * (s.top + 1) = v.sizeRow * s.top + v.sizeRow := Nat.mul_succ _ _
  have hlay := h.layout
  rw [stos_apply, if_neg (by omega), movs_apply _ _ _ _ (by omega), if_neg (by omega)]

theorem scrdown_safe (hv : v.Fits) (h : s.Placed v) : s.Safe v (s.scrdown v) := by
  rw [scrdown]
  split
  case isTrue => exact h.safe
  case isFalse hregion =>
    refine h.store fun a ha => ?_
    have hlt := h.sound.top_lt
    obtain ⟨hn, hregion⟩ := region_bytes v hlt
    have hlines : v.sizeRow * s.bottom ≤ v.lines * v.sizeRow := by
      rw [Nat.mul_comm]
      exact Nat.mul_le_mul_right _ h.sound.bottom_le
    have hrow : v.sizeRow = v.cols * 2 := rfl
    have hdown : v.sizeRow * (s.bottom - 1) + v.sizeRow = v.sizeRow * s.bottom := by
      rw [← Nat.mul_succ, Nat.succ_eq_add_one, Nat.sub_add_cancel (by omega)]
    have hend := h.scrEnd_eq
    have hcols := hv.cols
    have hlay := h.layout
    rw [stosDown_apply _ _ _ _ _ _ (by omega), if_neg (by omega),
      movsDown_apply _ _ _ _ (by omega) (by omega), if_neg (by omega)]

/-- The screen that has moved down one line in the memory, which may reach over its end. -/
def moved (v : Video) (s : Screen) : Screen :=
  { s with
    origin := s.origin + v.sizeRow
    pos := s.pos + v.sizeRow
    scrEnd := s.scrEnd + v.sizeRow }

theorem wrap_safe (h : s.Placed v) : s.Safe v ((s.moved v).wrap v) := by
  have hlt : 0 < v.lines := Nat.zero_lt_of_lt h.y_lt
  obtain ⟨hn, hregion⟩ := region_bytes v hlt
  rw [Nat.sub_zero] at hn hregion
  have hlines : v.sizeRow * v.lines = v.lines * v.sizeRow := Nat.mul_comm _ _
  have hlay := h.layout
  refine ⟨⟨h.sound, h.x_le, h.y_lt, ?_, ?_, Nat.le_refl _, ?_⟩, rfl, rfl, fun a ha => ?_⟩
  · show s.pos + v.sizeRow - (s.origin + v.sizeRow - s.memStart) = _
    show _ = s.memStart + s.y * v.sizeRow + s.x * 2
    omega
  · show s.scrEnd + v.sizeRow - (s.origin + v.sizeRow - s.memStart) = s.memStart + _
    omega
  · show s.scrEnd + v.sizeRow - (s.origin + v.sizeRow - s.memStart) ≤ s.memEnd
    omega
  · have hdst : s.memStart ≤ s.origin + v.sizeRow := by omega
    rw [wrap, moved]
    dsimp only
    rw [stos_apply, if_neg (by omega), movs_apply _ _ _ _ hdst, if_neg (by omega)]

/-- The screen moves by a line, within the memory. -/
theorem moved_safe (h : s.Placed v) (hfits : ¬ s.memEnd < s.scrEnd + v.sizeRow) :
    s.Safe v
      { s.moved v with
        mem := stos 2 s.eraseChar.byte v.cols s.mem (s.scrEnd + v.sizeRow - v.sizeRow) } := by
  have hlay := h.layout
  refine ⟨⟨h.sound, h.x_le, h.y_lt, ?_, ?_, ?_, Nat.not_lt.mp hfits⟩, rfl, rfl, fun a ha => ?_⟩
  · show s.pos + v.sizeRow = s.origin + v.sizeRow + s.y * v.sizeRow + s.x * 2
    omega
  · show s.scrEnd + v.sizeRow = s.origin + v.sizeRow + v.lines * v.sizeRow
    omega
  · show s.memStart ≤ s.origin + v.sizeRow
    omega
  · dsimp only
    rw [stos_apply, if_neg (by omega)]

theorem scrup_safe (h : s.Placed v) : s.Safe v (s.scrup v fg) := by
  rw [scrup]
  split
  case isTrue => exact h.safe
  case isFalse =>
    split
    case isFalse => exact moveUp_safe h
    case isTrue =>
      dsimp only
      split
      case isTrue => exact (wrap_safe h).trans (setOrigin_safe (wrap_safe h).placed)
      case isFalse hfits =>
        have hsafe := moved_safe h hfits
        exact hsafe.trans (setOrigin_safe hsafe.placed)

/-! ### The cursor -/

theorem gotoxy_safe (h : s.Placed v) (newX newY : BitVec 32) : s.Safe v (s.gotoxy v newX newY) := by
  rw [gotoxy]
  split
  case isTrue => exact h.safe
  case isFalse hbad =>
    obtain ⟨hx, hy⟩ := not_or.mp hbad
    exact h.go (Nat.not_lt.mp hx) (Nat.not_le.mp hy) rfl

theorem lf_safe (h : s.Placed v) : s.Safe v (s.lf v fg) := by
  rw [lf]
  split
  case isFalse => exact scrup_safe h
  case isTrue hlt =>
    refine h.go h.x_le (Nat.lt_of_lt_of_le hlt h.sound.bottom_le) ?_
    rw [h.pos_eq, Nat.succ_mul]
    omega

theorem ri_safe (hv : v.Fits) (h : s.Placed v) : s.Safe v (s.ri v) := by
  rw [ri]
  split
  case isFalse => exact scrdown_safe hv h
  case isTrue hlt =>
    refine h.go h.x_le (Nat.lt_of_le_of_lt (Nat.sub_le _ _) h.y_lt) ?_
    have hline : (s.y - 1) * v.sizeRow + v.sizeRow = s.y * v.sizeRow := by
      rw [← Nat.succ_mul, Nat.succ_eq_add_one, Nat.sub_add_cancel (by omega)]
    have hpos := h.pos_eq
    omega

theorem cr_safe (h : s.Placed v) : s.Safe v s.cr := by
  refine h.go (Nat.zero_le _) h.y_lt ?_
  rw [h.pos_eq]
  omega

theorem back_safe (h : s.Placed v) : s.Safe v s.back := by
  rw [back]
  split
  case isTrue => exact h.safe
  case isFalse hx =>
    have hlay := h.layout
    exact h.go (by omega) h.y_lt (by omega)

theorem del_safe (h : s.Placed v) : s.Safe v s.del := by
  have hback := back_safe h
  rw [back] at hback
  rw [del]
  split
  case isTrue => exact h.safe
  case isFalse hx =>
    rw [if_neg hx] at hback
    have hlay := h.layout
    refine hback.trans (putCell_safe hback.placed s.eraseChar ?_ ?_)
    · show s.origin ≤ s.pos - 2
      omega
    · show s.pos - 2 + 2 ≤ s.scrEnd
      omega

/-- From the end of a line, or from up to eight characters behind it. -/
theorem newLine_safe (h : s.Placed v) {x pos : ℕ} (hlo : v.cols ≤ x) (hhi : x ≤ 2 * v.cols)
    (hpos : pos = s.origin + s.y * v.sizeRow + x * 2) :
    s.Safe v ({ s with x := x, pos := pos }.newLine v fg) := by
  have hrow : v.sizeRow = v.cols * 2 := rfl
  have hmoved : s.Safe v { s with x := x - v.cols, pos := pos - v.sizeRow } :=
    h.go (by omega) h.y_lt (by omega)
  exact hmoved.trans (lf_safe hmoved.placed)

/-- A new line begins at the left. -/
theorem newLine_x (s : Screen) : (s.newLine v fg).x = s.x - v.cols := by
  have hscrup : ∀ t : Screen, (t.scrup v fg).x = t.x := by
    intro t
    rw [scrup]
    split
    · rfl
    split
    · dsimp only
      rw [setOrigin_toVc]
      split <;> rfl
    · rfl
  rw [newLine, lf]
  split
  · rfl
  · exact hscrup _

/-- A character is stored where the cursor is. -/
theorem glyph_safe (h : s.Placed v) (hx : s.x < v.cols) (glyph : BitVec 8) :
    s.Safe v
      { s with
        mem := BlockMoves.put 2 (Cell.mk glyph s.attr).byte s.mem s.pos
        pos := s.pos + 2
        x := s.x + 1 } := by
  have hlay := h.layout
  have hput := putCell_safe h ⟨glyph, s.attr⟩ (p := s.pos) (by omega) (by omega)
  refine hput.trans (hput.placed.go hx hput.placed.y_lt ?_)
  show s.pos + 2 = s.origin + s.y * v.sizeRow + (s.x + 1) * 2
  omega

theorem put_safe (h : s.Placed v) (hv : v.Fits) (glyph : BitVec 8) :
    s.Safe v (s.put v fg glyph) := by
  have hcols := hv.cols
  have hle := h.x_le
  rw [put]
  split
  case isFalse hlt => exact glyph_safe h (Nat.not_le.mp hlt) glyph
  case isTrue hend =>
    have hnew : s.Safe v (s.newLine v fg) := newLine_safe h hend (Nat.le_trans hle (by omega)) h.pos_eq
    refine hnew.trans (glyph_safe hnew.placed ?_ glyph)
    rw [newLine_x]
    omega

theorem tab_safe (h : s.Placed v) (hv : v.Fits) : s.Safe v (s.tab v fg) := by
  have hcols := hv.cols
  have hlay := h.layout
  rw [tab]
  dsimp only
  split
  case isTrue hlt => exact newLine_safe h (Nat.le_of_lt hlt) (by omega) (by omega)
  case isFalse hle =>
    exact h.go (Nat.not_lt.mp hle) h.y_lt (by omega)

/-! ### Control sequences -/

theorem csiJ_safe (h : s.Placed v) (vpar : BitVec 32) : s.Safe v (s.csiJ v vpar) := by
  have hlay := h.layout
  rw [csiJ]
  split
  · exact erase_screen h (by omega) (by omega)
  · exact erase_screen h (Nat.le_refl _) (by omega)
  · refine erase_screen h (Nat.le_refl _) ?_
    have hall : 2 * (v.cols * v.lines) = v.lines * v.sizeRow := by
      rw [hlay.1, Nat.mul_comm v.cols v.lines, ← Nat.mul_assoc v.lines, Nat.mul_comm 2]
    omega
  · exact h.safe

theorem csiK_safe (h : s.Placed v) (vpar : BitVec 32) : s.Safe v (s.csiK v vpar) := by
  have hlay := h.layout
  rw [csiK]
  split
  · split
    case isTrue => exact h.safe
    case isFalse => exact erase_screen h (by omega) (by omega)
  · exact erase_screen h (by omega) (by split <;> omega)
  · exact erase_screen h (by omega) (by omega)
  · exact h.safe

theorem Placed.region (h : s.Placed v) : Placed v { s with top := s.y, bottom := v.lines } :=
  ⟨⟨h.y_lt, Nat.le_refl _, h.sound.npar_le⟩, h.x_le, h.y_lt, h.pos_eq, h.scrEnd_eq, h.start_le,
    h.end_le⟩

/-- The region is put back afterwards. -/
theorem withRegion_safe (h : s.Placed v) {f : Screen → Screen}
    (hf : ∀ t : Screen, t.Placed v → t.Safe v (f t)) : s.Safe v (s.withRegion v f) := by
  obtain ⟨hplaced, hframe⟩ := hf _ h.region
  refine ⟨⟨⟨h.sound.top_lt, h.sound.bottom_le, hplaced.sound.npar_le⟩, hplaced.x_le, hplaced.y_lt,
    hplaced.pos_eq, hplaced.scrEnd_eq, hplaced.start_le, hplaced.end_le⟩, hframe.memStart,
    hframe.memEnd, hframe.bytes⟩

theorem iterate_safe {f : Screen → Screen} (hf : ∀ t : Screen, t.Placed v → t.Safe v (f t)) (n : ℕ)
    (h : s.Placed v) : s.Safe v (f^[n] s) := by
  induction n generalizing s with
  | zero => exact h.safe
  | succ n ih =>
    rw [Function.iterate_succ_apply]
    exact (hf s h).trans (ih (hf s h).placed)

theorem perform_safe (hv : v.Fits) (h : s.Placed v) (a : Action) : s.Safe v (s.perform v fg a) := by
  cases a with
  | stay => exact h.safe
  | gotoxy newX newY => exact gotoxy_safe h newX newY
  | lf => exact lf_safe h
  | ri => exact ri_safe hv h
  | cr => exact cr_safe h
  | del => exact del_safe h
  | put glyph => exact put_safe h hv glyph
  | back => exact back_safe h
  | tab => exact tab_safe h hv
  | csiJ vpar => exact csiJ_safe h vpar
  | csiK vpar => exact csiK_safe h vpar
  | csiAt nr => exact iterate_safe (fun _ => insertChar_safe) _ h
  | csiL nr => exact iterate_safe (fun _ ht => withRegion_safe ht fun _ => scrdown_safe hv) _ h
  | csiP nr => exact iterate_safe (fun _ => deleteChar_safe) _ h
  | csiM nr => exact iterate_safe (fun _ ht => withRegion_safe ht fun _ => scrup_safe) _ h

end Screen

/-! ### Characters -/

/-- What a character changes besides the screen: not the cursor, and the region and the parameters
stay sound. -/
structure Vt.Keeps (v : Video) (s s' : Vt) : Prop where
  x : s'.x = s.x
  y : s'.y = s.y
  sound : s.Sound v → s'.Sound v

namespace Vt

variable {s s' s'' : Vt}

theorem Keeps.trans (h : s.Keeps v s') (h' : s'.Keeps v s'') : s.Keeps v s'' :=
  ⟨h'.x.trans h.x, h'.y.trans h.y, fun hs => h'.sound (h.sound hs)⟩

/-- The cursor, the region and the number of the parameters are not touched. -/
theorem Keeps.of_eq (hx : s'.x = s.x) (hy : s'.y = s.y) (ht : s'.top = s.top)
    (hb : s'.bottom = s.bottom) (hn : s'.npar = s.npar) : s.Keeps v s' :=
  ⟨hx, hy, fun hs => ⟨by rw [ht, hb]; exact hs.top_lt, by rw [hb]; exact hs.bottom_le,
    by rw [hn]; exact hs.npar_le⟩⟩

theorem keeps_decPar (s : Vt) (i : ℕ) : s.Keeps v (s.decPar i) := by
  rw [decPar]
  split <;> exact .of_eq rfl rfl rfl rfl rfl

theorem keeps_incPar (s : Vt) (i : ℕ) : s.Keeps v (s.incPar i) := by
  rw [incPar]
  split <;> exact .of_eq rfl rfl rfl rfl rfl

theorem keeps_csiMPar (s : Vt) (p : BitVec 32) : s.Keeps v (s.csiMPar v p) := by
  rw [csiMPar]
  split
  all_goals try exact .of_eq rfl rfl rfl rfl rfl
  repeat' split
  all_goals exact .of_eq rfl rfl rfl rfl rfl

theorem keeps_csiSgr (s : Vt) : s.Keeps v (s.csiSgr v) := by
  have hfold : ∀ (l : List ℕ) (t : Vt), s.Keeps v t →
      s.Keeps v (l.foldl (fun t i => t.csiMPar v (s.par i)) t) := by
    intro l
    induction l with
    | nil => exact fun _ ht => ht
    | cons i l ih => exact fun t ht => ih _ (ht.trans (keeps_csiMPar t (s.par i)))
  exact hfold _ s (.of_eq rfl rfl rfl rfl rfl)

theorem keeps_csiR (s : Vt) : s.Keeps v (s.csiR v) := by
  have hpars : ∀ t : Vt, t.Keeps v (if t.par 1 = 0 then
      { t with par := update t.par 1 (BitVec.ofNat 32 v.lines) } else t) := by
    intro t
    split <;> exact .of_eq rfl rfl rfl rfl rfl
  have hregion : ∀ t : Vt, t.Keeps v
      (if (t.par 0).toNat < (t.par 1).toNat ∧ (t.par 1).toNat ≤ v.lines then
        { t with top := (t.par 0).toNat, bottom := (t.par 1).toNat } else t) := by
    intro t
    split
    case isTrue h => exact ⟨rfl, rfl, fun hs => ⟨h.1, h.2, hs.npar_le⟩⟩
    case isFalse => exact .of_eq rfl rfl rfl rfl rfl
  exact ((keeps_decPar s 0).trans (hpars _)).trans (hregion _)

theorem keeps_csiB (s : Vt) (c : BitVec 8) : s.Keeps v (s.csiB c) := by
  rw [csiB]
  split <;> exact .of_eq rfl rfl rfl rfl rfl

/-- Two cases of a switch. -/
theorem Keeps.ite {p : Prop} [Decidable p] {a b : Vt × Action} (ha : s.Keeps v a.1)
    (hb : s.Keeps v b.1) : s.Keeps v (if p then a else b).1 := by
  split
  · exact ha
  · exact hb

theorem Keeps.refl (s : Vt) : s.Keeps v s := ⟨rfl, rfl, id⟩

theorem keeps_gotPars (s : Vt) (c : BitVec 8) : s.Keeps v (s.gotPars v c).1 := by
  have hstate : s.Keeps v { s with state := .ESnormal } := .of_eq rfl rfl rfl rfl rfl
  refine hstate.trans ?_
  rw [gotPars]
  generalize { s with state := State.ESnormal } = t
  have hdec := keeps_decPar (v := v) t 0
  have hinc := keeps_incPar (v := v) t 0
  -- a private sequence, and the sequences that move the cursor
  refine .ite (.of_eq rfl rfl rfl rfl rfl) (.ite hdec (.ite hinc (.ite hinc (.ite hinc (.ite hinc
    (.ite hinc (.ite hinc (.ite hdec (.ite (hdec.trans (keeps_decPar _ 1)) ?_)))))))))
  -- those that change the screen
  refine .ite (.refl t) (.ite (.refl t) (.ite (.refl t) (.ite (.refl t) (.ite (.refl t)
    (.ite (.refl t) ?_)))))
  -- the attributes, the region, and what is saved
  exact .ite (keeps_csiSgr t) (.ite (keeps_csiR t) (.ite (.of_eq rfl rfl rfl rfl rfl)
    (.ite (.refl t) (keeps_csiB t c))))

theorem keeps_getPars (s : Vt) (c : BitVec 8) : s.Keeps v (s.getPars v c).1 := by
  rw [getPars]
  split
  case isTrue hnext =>
    exact ⟨rfl, rfl, fun hs => ⟨hs.top_lt, hs.bottom_le, Nat.succ_le_of_lt hnext.2⟩⟩
  case isFalse =>
    split
    case isTrue => exact .of_eq rfl rfl rfl rfl rfl
    case isFalse =>
      exact Keeps.trans (.of_eq rfl rfl rfl rfl rfl : s.Keeps v { s with state := .ESgotpars })
        (keeps_gotPars _ c)

theorem keeps_escape (hv : v.Fits) (s : Vt) (c : BitVec 8) : s.Keeps v (s.escape v c).1 := by
  have hstate : ∀ state : State, s.Keeps v { s with state := state } :=
    fun _ => .of_eq rfl rfl rfl rfl rfl
  have hreset : s.Keeps v { s with state := .ESnormal, top := 0, bottom := v.lines } :=
    ⟨rfl, rfl, fun hs => ⟨hv.lines, Nat.le_refl _, hs.npar_le⟩⟩
  rw [escape]
  exact .ite (hstate _) (.ite (hstate _) (.ite (hstate _) (.ite (hstate _)
    (.ite (.of_eq rfl rfl rfl rfl rfl) (.ite (hstate _) (.ite (hstate _) (.ite (hstate _)
      (.ite (hstate _) (.ite hreset (hstate _))))))))))

theorem keeps_normal (erase : BitVec 8) (s : Vt) (c : BitVec 8) :
    s.Keeps v (s.normal erase c).1 := by
  have hset : ∀ t : Charset, s.Keeps v { s with translate := t } :=
    fun _ => .of_eq rfl rfl rfl rfl rfl
  rw [normal]
  exact .ite (.refl s) (.ite (.of_eq rfl rfl rfl rfl rfl) (.ite (.refl s) (.ite (.refl s)
    (.ite (.refl s) (.ite (.refl s) (.ite (.refl s) (.ite (hset _) (.ite (hset _) (.refl s)))))))))

theorem keeps_interpret (hv : v.Fits) (erase : BitVec 8) (s : Vt) (c : BitVec 8) :
    s.Keeps v (s.interpret v erase c).1 := by
  have hcancel : s.Keeps v (if c = 24 ∨ c = 26 then { s with state := .ESnormal } else s) := by
    split <;> exact .of_eq rfl rfl rfl rfl rfl
  refine hcancel.trans ?_
  rw [interpret]
  generalize (if c = 24 ∨ c = 26 then { s with state := State.ESnormal } else s) = t
  dsimp only
  -- the states, in the order of the switch
  split
  · exact keeps_normal erase t c
  · exact keeps_escape hv t c
  · have hpars : ∀ (ques : Bool) (state : State), t.Keeps v
        { t with par := fun _ => 0, npar := 0, state := state, ques := ques } :=
      fun _ _ => ⟨rfl, rfl, fun hs => ⟨hs.top_lt, hs.bottom_le, Nat.zero_le _⟩⟩
    split
    · exact hpars _ _
    split
    · exact hpars _ _
    · exact (hpars _ _).trans (keeps_getPars _ c)
  · exact keeps_getPars t c
  · exact keeps_gotPars t c
  · exact .of_eq rfl rfl rfl rfl rfl
  · split <;> exact .of_eq rfl rfl rfl rfl rfl
  · repeat' split
    all_goals exact .of_eq rfl rfl rfl rfl rfl
  · exact .of_eq rfl rfl rfl rfl rfl

end Vt

namespace Screen

/-- What a character does to the fields leaves the console where it is. -/
theorem interpret_safe (hv : v.Fits) (h : s.Placed v) (erase c : BitVec 8) :
    s.Safe v { s with toVt := (s.toVt.interpret v erase c).1 } := by
  obtain ⟨hx, hy, hsound⟩ := Vt.keeps_interpret hv erase s.toVt c
  have hplaced : Placed v { s with toVt := (s.toVt.interpret v erase c).1 } := by
    refine ⟨hsound h.sound, Nat.le_trans (Nat.le_of_eq hx) h.x_le,
      Nat.lt_of_le_of_lt (Nat.le_of_eq hy) h.y_lt, ?_, h.scrEnd_eq, h.start_le,
      h.end_le⟩
    show s.pos = s.origin + (s.toVt.interpret v erase c).1.y * v.sizeRow +
      (s.toVt.interpret v erase c).1.x * 2
    rw [hx, hy]
    exact h.pos_eq
  exact .of_cursor hplaced rfl rfl rfl

theorem write_safe (hv : v.Fits) (h : s.Placed v) (erase c : BitVec 8) :
    s.Safe v (s.write v fg erase c) :=
  (interpret_safe hv h erase c).trans (perform_safe hv (interpret_safe hv h erase c).placed _)

theorem print_safe (hv : v.Fits) (h : s.Placed v) (c : BitVec 8) :
    s.Safe v (s.print v fg c) := by
  rw [print]
  split
  · exact (cr_safe h).trans (lf_safe (cr_safe h).placed)
  split
  · exact cr_safe h
  · exact put_safe h hv c

end Screen
/-! ### All consoles -/

/-- The memory of a console. -/
def Video.Owns (v : Video) (i a : ℕ) : Prop :=
  v.memBase + i * v.memory ≤ a ∧ a < v.memBase + (i + 1) * v.memory

/-- The console that an event writes to. -/
def Event.target (s : Consoles) : Event → Option ℕ
  | .write i _ _ => some i
  | .print _ => some s.fg
  | .change _ => none

namespace Video

theorem Fits.consoles (hv : v.Fits) :
    v.NR_CONSOLES = min ((v.memTerm - v.memBase) / (v.lines * v.sizeRow)) 8 ∧
      0 < v.NR_CONSOLES := by
  have hcols := hv.cols
  have hrow : v.sizeRow = v.cols * 2 := rfl
  have hpos : 0 < v.lines * v.sizeRow := Nat.mul_pos hv.lines (by omega)
  have hone : 1 ≤ (v.memTerm - v.memBase) / (v.lines * v.sizeRow) :=
    (Nat.le_div_iff_mul_le hpos).mpr (by rw [Nat.one_mul]; exact hv.memory)
  rw [NR_CONSOLES, if_neg (by omega)]
  exact ⟨rfl, by omega⟩

/-- A screen fits in what a console gets. -/
theorem Fits.screen (hv : v.Fits) : v.lines * v.sizeRow ≤ v.memory := by
  obtain ⟨hnr, hpos⟩ := hv.consoles
  rw [Video.memory, Nat.le_div_iff_mul_le hpos, Nat.mul_comm, hnr]
  exact Nat.le_trans (Nat.mul_le_mul_right _ (Nat.min_le_left _ _)) (Nat.div_mul_le_self _ _)

theorem memBase_le (v : Video) : v.memBase ≤ v.memTerm := by
  rw [memBase, memTerm, canDoColour]
  cases v.type <;> decide

/-- The consoles share the memory of the adapter. -/
theorem memory_le (v : Video) : v.NR_CONSOLES * v.memory ≤ v.memTerm - v.memBase := by
  rw [memory, Nat.mul_comm]
  exact Nat.div_mul_le_self _ _

end Video

namespace Consoles

/-- Every console is placed in its part of the memory. -/
structure Fitted (v : Video) (s : Consoles) : Prop where
  fg_lt : s.fg < v.NR_CONSOLES
  placed : ∀ i < v.NR_CONSOLES, (s.screen i).Placed v
  memStart : ∀ i < v.NR_CONSOLES, (s.vc i).memStart = v.memBase + i * v.memory
  memEnd : ∀ i < v.NR_CONSOLES, (s.vc i).memEnd = v.memBase + (i + 1) * v.memory

variable {s : Consoles}

@[simp] theorem screen_put_self (s : Consoles) (i : ℕ) (t : Screen) : (s.put i t).screen i = t := by
  obtain ⟨vc, mem, start⟩ := t
  simp [put, screen]

theorem vc_put_of_ne (s : Consoles) {i j : ℕ} (hj : j ≠ i) (t : Screen) :
    (s.put i t).vc j = s.vc j := Function.update_of_ne hj _ _

/-- The console `i` is written. -/
theorem Fitted.put (h : s.Fitted v) {i : ℕ} (hi : i < v.NR_CONSOLES) {t : Screen}
    (ht : (s.screen i).Safe v t) : (s.put i t).Fitted v := by
  refine ⟨h.fg_lt, fun j hj => ?_, fun j hj => ?_, fun j hj => ?_⟩ <;> by_cases hji : j = i
  · rw [hji, screen_put_self]
    exact ht.placed
  · exact (h.placed j hj).congr (vc_put_of_ne s hji t)
  · rw [hji, show (s.put i t).vc i = t.toVc from Function.update_self _ _ _]
    exact ht.frame.memStart.trans (h.memStart i hi)
  · rw [vc_put_of_ne s hji]
    exact h.memStart j hj
  · rw [hji, show (s.put i t).vc i = t.toVc from Function.update_self _ _ _]
    exact ht.frame.memEnd.trans (h.memEnd i hi)
  · rw [vc_put_of_ne s hji]
    exact h.memEnd j hj

theorem Fitted.write (h : s.Fitted v) {i : ℕ} (hi : i < v.NR_CONSOLES) {t : Screen}
    (ht : (s.screen i).Safe v t) :
    (s.put i t).Fitted v ∧ ∀ a, ¬ v.Owns i a → (s.put i t).mem a = s.mem a := by
  refine ⟨h.put hi ht, fun a ha => ht.frame.bytes a ?_⟩
  rw [Video.Owns, ← h.memStart i hi, ← h.memEnd i hi] at ha
  show a < (s.vc i).memStart ∨ (s.vc i).memEnd ≤ a
  omega

theorem Fitted.step (hv : v.Fits) (h : s.Fitted v) (e : Event) :
    (s.step v e).Fitted v ∧
      ∀ a, (∀ i, e.target s = some i → ¬ v.Owns i a) → (s.step v e).mem a = s.mem a := by
  cases e with
  | write i erase c =>
    rw [Consoles.step]
    split
    case isFalse => exact ⟨h, fun _ _ => rfl⟩
    case isTrue hi =>
      obtain ⟨hfit, hmem⟩ := h.write hi (Screen.write_safe hv (h.placed i hi) erase c)
      exact ⟨hfit, fun a ha => hmem a (ha i rfl)⟩
  | print c =>
    obtain ⟨hfit, hmem⟩ := h.write h.fg_lt (Screen.print_safe hv (h.placed _ h.fg_lt) c)
    exact ⟨hfit, fun a ha => hmem a (ha s.fg rfl)⟩
  | change i =>
    rw [Consoles.step]
    split
    case isTrue => exact ⟨h, fun _ _ => rfl⟩
    case isFalse hbad =>
      exact ⟨⟨Nat.not_le.mp (not_or.mp hbad).2, fun i hi => (h.placed i hi).congr rfl, h.memStart,
        h.memEnd⟩, fun _ _ => rfl⟩

/-! ### `con_init` -/

theorem describe_apply (cs : List (BitVec 8)) (m : ℕ → BitVec 8) (p : ℕ) {a : ℕ}
    (ha : a < p ∨ p + 2 * cs.length ≤ a) : describe m p cs a = m a := by
  induction cs generalizing m p with
  | nil => rfl
  | cons c cs ih =>
    rw [List.length_cons] at ha
    rw [describe, ih _ _ (by omega)]
    exact Function.update_of_ne (by omega) _ _

/-- The cursor goes to a place on the screen. -/
theorem gotoxy_placed {t : Screen} (hs : t.toVt.Sound v) {x y : BitVec 32} (hx : x.toNat ≤ v.cols)
    (hy : y.toNat < v.lines) (hend : t.scrEnd = t.origin + v.lines * v.sizeRow)
    (hstart : t.memStart ≤ t.origin) (hle : t.scrEnd ≤ t.memEnd) :
    (t.gotoxy v x y).Placed v ∧ (t.gotoxy v x y).memStart = t.memStart ∧
      (t.gotoxy v x y).memEnd = t.memEnd := by
  rw [Screen.gotoxy, if_neg (by omega)]
  exact ⟨⟨⟨hs.top_lt, hs.bottom_le, hs.npar_le⟩, hx, hy, rfl, hend, hstart, hle⟩, rfl, rfl⟩

/-- The cursor of the BIOS is on the screen. -/
def CursorIn (v : Video) (origX origY : BitVec 8) : Prop :=
  origX.toNat ≤ v.cols ∧ origY.toNat < v.lines

theorem firstVc_placed (hv : v.Fits) {origX origY : BitVec 8} (hc : CursorIn v origX origY)
    (m : ℕ → BitVec 8) : (firstVc v origX origY m).Placed v ∧
      (firstVc v origX origY m).memStart = v.memBase ∧
      (firstVc v origX origY m).memEnd = v.memBase + v.memory := by
  have hwide : ∀ b : BitVec 8, (b.setWidth 32).toNat = b.toNat := fun b => by
    rw [BitVec.toNat_setWidth, Nat.mod_eq_of_lt (Nat.lt_trans b.isLt (by decide))]
  refine gotoxy_placed ⟨hv.lines, Nat.le_refl _, Nat.zero_le _⟩ ?_ ?_ rfl (Nat.le_refl _)
    (Nat.add_le_add_left hv.screen _)
  · rw [hwide]
    exact hc.1
  · rw [hwide]
    exact hc.2

theorem conInit_fitted (hv : v.Fits) {origX origY : BitVec 8} (hc : CursorIn v origX origY)
    (m : ℕ → BitVec 8) : (conInit v origX origY m).Fitted v := by
  have hvc : ∀ i < v.NR_CONSOLES, ((conInit v origX origY m).screen i).Placed v ∧
      ((conInit v origX origY m).vc i).memStart = v.memBase + i * v.memory ∧
      ((conInit v origX origY m).vc i).memEnd = v.memBase + (i + 1) * v.memory := by
    intro i _
    obtain ⟨hfirst, hstart, hend⟩ := firstVc_placed hv hc m
    by_cases hi : i = 0
    · have hzero : (conInit v origX origY m).vc i = (firstVc v origX origY m).toVc := by
        rw [conInit]
        exact if_pos hi
      refine ⟨hfirst.congr hzero, ?_, ?_⟩
      · rw [hzero, hi, hstart, Nat.zero_mul, Nat.add_zero]
      · rw [hzero, hi, hend, Nat.zero_add, Nat.one_mul]
    · have hother : (conInit v origX origY m).vc i =
          (otherVc v (firstVc v origX origY m) i).toVc := by
        rw [conInit]
        exact if_neg hi
      have hend : v.memBase + i * v.memory + v.lines * v.sizeRow ≤
          v.memBase + v.memory + i * v.memory := by
        have := hv.screen
        omega
      obtain ⟨hplaced, hstart', hend'⟩ := gotoxy_placed (v := v) (x := 0) (y := 0)
        (t := { firstVc v origX origY m with
          origin := v.memBase + i * v.memory
          memStart := v.memBase + i * v.memory
          scrEnd := v.memBase + i * v.memory + v.lines * v.sizeRow
          memEnd := v.memBase + v.memory + i * v.memory })
        hfirst.sound (Nat.zero_le _) hv.lines rfl (Nat.le_refl _) hend
      refine ⟨hplaced.congr hother, ?_, ?_⟩
      · rw [hother]
        exact hstart'
      · rw [hother, Nat.succ_mul, ← Nat.add_assoc, Nat.add_right_comm]
        exact hend'
  exact ⟨hv.consoles.2, fun i hi => (hvc i hi).1, fun i hi => (hvc i hi).2.1,
    fun i hi => (hvc i hi).2.2⟩

theorem fitted_run (hv : v.Fits) (h : s.Fitted v) (es : List Event) :
    (es.foldl (Consoles.step v) s).Fitted v := by
  induction es generalizing s with
  | nil => exact h
  | cons e es ih => exact ih (h.step hv e).1

end Consoles

/-- Whatever is written to the consoles, and printed: each stays placed in its part of the video
memory, and a character changes no byte outside the memory of the console it is for. -/
theorem console_memory (v : Video) (hv : v.Fits) (origX origY : BitVec 8)
    (hc : Consoles.CursorIn v origX origY) (m : ℕ → BitVec 8) (es : List Event) :
    ((es.foldl (Consoles.step v) (Consoles.conInit v origX origY m)).Fitted v ∧
      v.memBase + v.NR_CONSOLES * v.memory ≤ v.memTerm) ∧
    (∀ e a, (∀ i, e.target (es.foldl (Consoles.step v) (Consoles.conInit v origX origY m)) =
        some i → ¬ v.Owns i a) →
      (Consoles.step v (es.foldl (Consoles.step v) (Consoles.conInit v origX origY m)) e).mem a =
        (es.foldl (Consoles.step v) (Consoles.conInit v origX origY m)).mem a) ∧
    ∀ a, ¬ v.Owns 0 a → (Consoles.conInit v origX origY m).mem a = m a := by
  have hrun := Consoles.fitted_run hv (Consoles.conInit_fitted hv hc m) es
  have hbase := v.memBase_le
  refine ⟨⟨hrun, ?_⟩, fun e a ha => (hrun.step hv e).2 a ha, fun a ha => ?_⟩
  · have := v.memory_le
    omega
  · have hmem : (Consoles.conInit v origX origY m).mem =
        Consoles.describe m (v.memBase + v.sizeRow - 8) v.displayDesc := by
      rw [Consoles.conInit, Consoles.firstVc, Screen.gotoxy]
      dsimp only
      split <;> rfl
    have hlen : v.displayDesc.length = 4 := by
      rw [Video.displayDesc]
      split <;> rfl
    have hscreen := hv.screen
    have hcols := hv.cols
    have hrow : v.sizeRow = v.cols * 2 := rfl
    have hline : v.sizeRow ≤ v.lines * v.sizeRow := Nat.le_mul_of_pos_left _ hv.lines
    rw [Video.Owns, Nat.zero_mul, Nat.zero_add, Nat.one_mul] at ha
    rw [hmem]
    exact Consoles.describe_apply _ _ _ (by omega)

/-- A colour screen of 25 lines. -/
def vga : Video := ⟨.EGAC, 80, 25⟩

theorem console_memory_vga :
    (([.write 0 127 65, .change 1] : List Event).foldl (Consoles.step vga)
      (Consoles.conInit vga 0 0 fun _ => 0)).Fitted vga :=
  (console_memory vga ⟨by decide, by decide, by decide, by decide⟩ 0 0 ⟨by decide, by decide⟩
    _ _).1.1

end Console
