/-
The mutual recursion of `pty_copy`, `mpty_write`, `spty_write` and `copy_to_cooked`
(kernel/chr_drv/pty.c, kernel/chr_drv/tty_io.c).

* `nested` — the machine of these calls, with the stack as the kernel has it;
* `PtyEnds` — with these settings of both sides every call ends, whatever the queues hold, and
  they are nested at most so deep;
* `Spent` — what the characters that the echoing side has yet to take tell about a call;
* `pty_copy_ends` — the calls end just if not both sides echo.

Design notes: the stack machine is that of the terminals; a `pty_copy` that has made its last
call stays on the stack until it has woken up the writers.
-/
import Linux012.Tty
import Linux012.CallStacks
import Mathlib.Data.Fintype.Card

namespace Tty

open CallStack (Next Returns)

variable {T : Type} [DecidableEq T]

/-- The next step of a call; none is a `pty_copy` before its `wake_up`. -/
def nested (K : TtyTable T) (s : Ttys T) (signal : Bool) :
    Option (Frame T) → Ttys T × List (Option (Frame T))
  | none => (s, [])
  | some f =>
    let (s', frames) := f.run K s signal false
    (s', frames.map some ++
      match f with
      | .pty _ dst => if frames = [.cooked dst .top] then [none] else []
      | _ => [])

/-- The calls between the two sides of a pseudo-terminal. -/
inductive PtyCall (E F : T) : Frame T → Prop where
  /-- `mpty_write` and `spty_write` -/
  | master : PtyCall E F (.pty E F)
  | slave : PtyCall E F (.pty F E)
  | cookedMaster : PtyCall E F (.cooked E .top)
  | cookedSlave : PtyCall E F (.cooked F .top)

/-- Every such call ends, and no more than `d` calls are nested. -/
def PtyEnds (K : TtyTable T) (E F : T) (m m' : Termios) (d : ℕ) : Prop :=
  ∀ s : Ttys T, (s.tty E).termios = m → (s.tty F).termios = m' → ∀ f, PtyCall E F f →
    Acc (fun c' c => Next (nested K) c c') (s, [some f]) ∧
    ∀ c, Relation.ReflTransGen (Next (nested K)) (s, [some f]) c → c.2.length ≤ d

/-! ### What the queues hold -/

namespace Ttys

variable (s : Ttys T) (t t' : T) (f : TtyQueue → TtyQueue)

def reads : ℕ := (s.tty t).readQ.ring.count
def writes : ℕ := (s.tty t).writeQ.ring.count
def seconds : ℕ := (s.tty t).secondary.ring.count

@[simp] theorem reads_modifyRead_self :
    (s.modifyRead t f).reads t = (f (s.tty t).readQ).ring.count := by
  rw [reads, modifyRead, modify_tty_self]

@[simp] theorem writes_modifyWrite_self :
    (s.modifyWrite t f).writes t = (f (s.tty t).writeQ).ring.count := by
  rw [writes, modifyWrite, modify_tty_self]

@[simp] theorem seconds_modifySecondary_self :
    (s.modifySecondary t f).seconds t = (f (s.tty t).secondary).ring.count := by
  rw [seconds, modifySecondary, modify_tty_self]

theorem reads_modifyRead_of_ne (h : t' ≠ t) : (s.modifyRead t f).reads t' = s.reads t' := by
  rw [reads, modifyRead, modify_tty_of_ne h, reads]

theorem writes_modifyWrite_of_ne (h : t' ≠ t) : (s.modifyWrite t f).writes t' = s.writes t' := by
  rw [writes, modifyWrite, modify_tty_of_ne h, writes]

theorem seconds_modifySecondary_of_ne (h : t' ≠ t) :
    (s.modifySecondary t f).seconds t' = s.seconds t' := by
  rw [seconds, modifySecondary, modify_tty_of_ne h, seconds]

@[simp] theorem reads_modifyWrite : (s.modifyWrite t f).reads t' = s.reads t' :=
  modify_keeps (fun y => y.readQ.ring.count) s t t' fun _ => rfl

@[simp] theorem reads_modifySecondary : (s.modifySecondary t f).reads t' = s.reads t' :=
  modify_keeps (fun y => y.readQ.ring.count) s t t' fun _ => rfl

@[simp] theorem writes_modifyRead : (s.modifyRead t f).writes t' = s.writes t' :=
  modify_keeps (fun y => y.writeQ.ring.count) s t t' fun _ => rfl

@[simp] theorem writes_modifySecondary : (s.modifySecondary t f).writes t' = s.writes t' :=
  modify_keeps (fun y => y.writeQ.ring.count) s t t' fun _ => rfl

@[simp] theorem seconds_modifyRead : (s.modifyRead t f).seconds t' = s.seconds t' :=
  modify_keeps (fun y => y.secondary.ring.count) s t t' fun _ => rfl

@[simp] theorem seconds_modifyWrite : (s.modifyWrite t f).seconds t' = s.seconds t' :=
  modify_keeps (fun y => y.secondary.ring.count) s t t' fun _ => rfl

@[simp] theorem modifySecondary_termios :
    ((s.modifySecondary t f).tty t').termios = (s.tty t').termios :=
  modify_keeps TtyStruct.termios s t t' fun _ => rfl

end Ttys

/-- The characters that `copy_to_cooked` has yet to take on the side `E`. -/
def supply (E F : T) (s : Ttys T) : ℕ := s.reads E + s.writes F

/-- After some calls `E` has no more characters to take than before, and `F` does not echo. -/
structure Spent (E F : T) (s s' : Ttys T) : Prop where
  quiet : ¬ (s'.tty F).termios.L ECHO
  le : supply E F s' ≤ supply E F s

/-- The two sides of a pseudo-terminal. -/
structure Sides (K : TtyTable T) (E F : T) : Prop where
  ne : E ≠ F
  left : (K.kind E).write E = [.pty E F]
  right : (K.kind F).write F = [.pty F E]

/-! ### The steps of the machine -/

section

variable {K : TtyTable T} {s s' : Ttys T} {t u : T} {pc pc' : Cooked} {d d' : ℕ}
  {Q Q' : Ttys T → Prop}

theorem nested_cooked (K : TtyTable T) (s : Ttys T) (signal : Bool) (t : T) (pc : Cooked) :
    nested K s signal (some (.cooked t pc)) =
      ((pc.run K s t).1, (pc.run K s t).2.map some) := by
  rw [nested]
  dsimp only [Frame.run]
  rw [List.append_nil]

theorem cooked_goes (hrun : pc.run K s t = (s', [.cooked t pc'])) (hd : 1 ≤ d)
    (h : Returns (nested K) d Q s' [some (.cooked t pc')]) :
    Returns (nested K) d Q s [some (.cooked t pc)] := by
  refine .one hd fun i => ?_
  rw [nested_cooked, hrun]
  exact h

theorem cooked_ends (hrun : pc.run K s t = (s', [])) (hd : 1 ≤ d) (h : Q s') :
    Returns (nested K) d Q s [some (.cooked t pc)] := by
  refine .one hd fun i => ?_
  rw [nested_cooked, hrun]
  exact .nil h

/-- `tty->write(tty)` in `copy_to_cooked`. -/
theorem cooked_writes (hrun : pc.run K s t = (s', (K.kind t).write t ++ [.cooked t pc']))
    (hwrite : (K.kind t).write t = [.pty t u]) (hd : d + 1 ≤ d')
    (hpty : Returns (nested K) d Q s' [some (.pty t u)])
    (h : ∀ s'', Q s'' → Returns (nested K) d' Q' s'' [some (.cooked t pc')]) :
    Returns (nested K) d' Q' s [some (.cooked t pc)] := by
  refine .one (by omega) fun i => ?_
  rw [nested_cooked, hrun, hwrite]
  exact hpty.append hd h

/-- The last call of `pty_copy`. -/
theorem pty_last (hd : d + 1 ≤ d') (h : Returns (nested K) d Q s [some (.cooked u .top)]) :
    Returns (nested K) d' Q s [some (.cooked u .top), none] := by
  refine h.append hd fun s' hs' => ?_
  exact .one (by omega) fun _ => .nil hs'

theorem pty_stops (hd : d + 1 ≤ d')
    (hstop : (s.tty t).stopped = true ∨ (s.tty t).writeQ.ring.Empty ∨
      ((s.tty u).readQ.ring.Full ∧ (s.tty u).secondary.ring.Full))
    (h : Returns (nested K) d Q s [some (.cooked u .top)]) :
    Returns (nested K) d' Q s [some (.pty t u)] := by
  refine .one (by omega) fun i => ?_
  have hrun : ptyCopy s t u i = (s, [.cooked u .top]) := by
    rw [ptyCopy]
    by_cases hfirst : (s.tty t).stopped = true ∨ (s.tty t).writeQ.ring.Empty
    · rw [if_pos hfirst]
    · obtain ⟨hfull, hfull'⟩ : (s.tty u).readQ.ring.Full ∧ (s.tty u).secondary.ring.Full := by
        tauto
      rw [if_neg hfirst, if_pos hfull, if_pos hfull']
  rw [nested]
  dsimp only [Frame.run]
  rw [hrun]
  simp only [if_true]
  exact pty_last hd h

/-- `copy_to_cooked` is to make room. -/
theorem pty_again (hd : d + 1 ≤ d')
    (hgo : ¬ ((s.tty t).stopped = true ∨ (s.tty t).writeQ.ring.Empty))
    (hfull : (s.tty u).readQ.ring.Full) (hroom : ¬ (s.tty u).secondary.ring.Full)
    (h : Returns (nested K) d Q s [some (.cooked u .top)])
    (hrest : ∀ s', Q s' → Returns (nested K) d' Q' s' [some (.pty t u)]) :
    Returns (nested K) d' Q' s [some (.pty t u)] := by
  refine .one (by omega) fun i => ?_
  have hrun : ptyCopy s t u i = (s, [.cooked u .top, .pty t u]) := by
    rw [ptyCopy, if_neg hgo, if_pos hfull, if_neg hroom]
  have hne : ([.cooked u .top, .pty t u] : List (Frame T)) ≠ [.cooked u .top] := by simp
  rw [nested]
  dsimp only [Frame.run]
  rw [hrun]
  dsimp only
  rw [if_neg hne]
  exact h.append hd hrest

/-- The terminals after a character has gone from `t` to `u`. -/
def Ttys.moved (s : Ttys T) (t u : T) : Ttys T :=
  (s.modifyWrite t .incTail).modifyRead u (·.putch (s.tty t).writeQ.ring.front)

/-- A character goes over, and a signal may end the loop. -/
theorem pty_moves (hd : d + 1 ≤ d')
    (hgo : ¬ ((s.tty t).stopped = true ∨ (s.tty t).writeQ.ring.Empty))
    (hfull : ¬ (s.tty u).readQ.ring.Full)
    (hcut : Returns (nested K) d Q (s.moved t u) [some (.cooked u .top)])
    (h : Returns (nested K) d' Q (s.moved t u) [some (.pty t u)]) :
    Returns (nested K) d' Q s [some (.pty t u)] := by
  refine .one (by omega) fun i => ?_
  have hrun : ptyCopy s t u i =
      (s.moved t u, if i then [.cooked u .top] else [.pty t u]) := by
    rw [ptyCopy, if_neg hgo, if_neg hfull]
    rfl
  have hne : ([.pty t u] : List (Frame T)) ≠ [.cooked u .top] := by simp
  rw [nested]
  dsimp only [Frame.run]
  rw [hrun]
  dsimp only
  cases i with
  | true =>
    rw [if_pos rfl, if_pos rfl]
    exact pty_last hd hcut
  | false =>
    rw [if_neg Bool.false_ne_true, if_neg hne]
    exact h

/-! ### One character in `copy_to_cooked` -/

/-- The rest of a character's way, and of the loop, on the side `t`: `P` holds on it, `R` relates
its states, and `κ` does not grow. -/
structure Walk (K : TtyTable T) (t u : T) (d : ℕ) (P : Ttys T → Prop)
    (R : Ttys T → Ttys T → Prop) (κ : Ttys T → ℕ) : Prop where
  trans {s s' s'' : Ttys T} (h : R s s') (h' : R s' s'') : R s s''
  keep {s s' : Ttys T} (h : P s) (h' : R s s') : P s'
  refl {s : Ttys T} (h : P s) : R s s
  secondary {s : Ttys T} (h : P s) (f : TtyQueue → TtyQueue) :
    R s (s.modifySecondary t f) ∧ κ (s.modifySecondary t f) = κ s
  stop {s : Ttys T} (h : P s) (b : Bool) : R s (s.modify t fun y => { y with stopped := b })
  putch {s : Ttys T} (h : P s) (hecho : (s.tty t).termios.L ECHO) (c : BitVec 8) :
    R s (s.modifyWrite t (·.putch c)) ∧ κ (s.modifyWrite t (·.putch c)) = κ s
  other : (K.kind t).write t = [.pty t u]
  write {s : Ttys T} (h : P s) : Returns (nested K) d (fun s' => R s s' ∧
    ((s.tty t).termios.L ECHO → κ s' ≤ κ s ∧ (κ s' = κ s → s'.seconds t = s.seconds t)))
      s [some (.pty t u)]
  top {s : Ttys T} (h : P s) : Returns (nested K) (d + 1) (R s) s [some (.cooked t .top)]

namespace Walk

variable {P : Ttys T → Prop} {R : Ttys T → Ttys T → Prop} {κ : Ttys T → ℕ}

theorem after (h : Walk K t u d P R κ) (hR : R s s')
    (hrest : Returns (nested K) (d + 1) (R s') s' [some (.cooked t pc)]) :
    Returns (nested K) (d + 1) (R s) s' [some (.cooked t pc)] :=
  hrest.mono le_rfl fun _ => h.trans hR

theorem store (h : Walk K t u d P R κ) (hP : P s) (c : BitVec 8) :
    Returns (nested K) (d + 1) (R s) s [some (.cooked t (.store c))] := by
  have hR := (h.secondary hP (·.putch c)).1
  exact cooked_goes rfl (by omega) (h.after hR (h.top (h.keep hP hR)))

theorem echo (h : Walk K t u d P R κ) (hP : P s) (hecho : (s.tty t).termios.L ECHO)
    (cs : List (BitVec 8)) (c : BitVec 8) :
    Returns (nested K) (d + 1) (R s) s [some (.cooked t (.echo cs c))] := by
  induction cs generalizing s with
  | nil =>
    refine cooked_writes rfl h.other le_rfl (h.write hP) fun s'' hs'' => ?_
    exact h.after hs''.1 (h.store (h.keep hP hs''.1) c)
  | cons x cs ih =>
    have hR := (h.putch hP hecho x).1
    refine cooked_goes rfl (by omega) (h.after hR (ih (h.keep hP hR) ?_))
    rwa [Ttys.modifyWrite_termios]

/-- The characters that take one off the screen, and what follows. -/
theorem rub (h : Walk K t u d P R κ) (hP : P s) (hecho : (s.tty t).termios.L ECHO)
    (cs : List (BitVec 8)) (again : Bool)
    (hdec : ∀ s', P s' → κ s' ≤ κ s → (κ s' = κ s → s'.seconds t = s.seconds t) →
      Returns (nested K) (d + 1) (R s') s' [some (.cooked t (.dec again))]) :
    Returns (nested K) (d + 1) (R s) s [some (.cooked t (.rub cs again))] := by
  induction cs generalizing s with
  | nil =>
    refine cooked_writes rfl h.other le_rfl (h.write hP) fun s'' hs'' => ?_
    obtain ⟨hle, hsame⟩ := hs''.2 hecho
    exact h.after hs''.1 (hdec s'' (h.keep hP hs''.1) hle hsame)
  | cons x cs ih =>
    obtain ⟨hR, hκ⟩ := h.putch hP hecho x
    refine cooked_goes rfl (by omega) (h.after hR (ih (h.keep hP hR) ?_ fun s' hs' hle hsame => ?_))
    · rwa [Ttys.modifyWrite_termios]
    · rw [hκ] at hle hsame
      rw [Ttys.seconds_modifyWrite] at hsame
      exact hdec s' hs' hle hsame

/-- A character is erased, with or without an echo. -/
theorem erase (h : Walk K t u d P R κ) (hP : P s) (again : Bool)
    (hdec : ∀ s', P s' → κ s' ≤ κ s → (κ s' = κ s → s'.seconds t = s.seconds t) →
      Returns (nested K) (d + 1) (R s') s' [some (.cooked t (.dec again))]) :
    Returns (nested K) (d + 1) (R s) s [some (.cooked t (Cooked.erase (s.tty t) again))] := by
  rw [Cooked.erase]
  split
  case isTrue hecho => exact h.rub hP hecho _ again hdec
  case isFalse => exact hdec s hP le_rfl fun _ => rfl

theorem dec_top (h : Walk K t u d P R κ) (hP : P s) :
    Returns (nested K) (d + 1) (R s) s [some (.cooked t (.dec false))] := by
  have hR := (h.secondary hP .decHead).1
  exact cooked_goes rfl (by omega) (h.after hR (h.top (h.keep hP hR)))

/-- The loop of the kill character: the line gets shorter, if nothing more is taken. -/
theorem kill (h : Walk K t u d P R κ) (n : ℕ) (hP : P s) (hn : 1024 * κ s + s.seconds t ≤ n) :
    Returns (nested K) (d + 1) (R s) s [some (.cooked t .kill)] := by
  induction n using Nat.strong_induction_on generalizing s with
  | h n ih =>
    by_cases hstart : Cooked.AtStart (s.tty t)
    · exact cooked_goes (if_pos hstart) (by omega) (h.top hP)
    · refine cooked_goes (if_neg hstart) (by omega) (h.erase hP true fun s' hP' hle hsame => ?_)
      obtain ⟨hR, hκ⟩ := h.secondary hP' .decHead
      have hempty : ¬ (s.tty t).secondary.ring.Empty := fun hempty => hstart (.inl hempty)
      have hpos : s.seconds t ≠ 0 := fun hzero => hempty (RingBuffer.empty_iff.mpr hzero)
      refine cooked_goes rfl (by omega) (h.after hR (ih _ ?_ (h.keep hP' hR) le_rfl))
      rw [hκ, Ttys.seconds_modifySecondary_self]
      have hlast := (s'.tty t).secondary.decHead.ring.count_le
      by_cases heq : κ s' = κ s
      · -- the line is as it was, and its last character goes
        have hseconds : (s'.tty t).secondary.ring.count = s.seconds t := hsame heq
        have hempty' : ¬ (s'.tty t).secondary.ring.Empty := fun hempty => by
          rw [RingBuffer.empty_iff] at hempty
          omega
        have hcount : (s'.tty t).secondary.decHead.ring.count + 1 =
          (s'.tty t).secondary.ring.count := RingBuffer.count_unpush hempty'
        omega
      · omega

/-- A character has been translated. -/
theorem dispatch (h : Walk K t u d P R κ) (hP : P s) (hrun : pc.run K s t = Cooked.dispatch K s t c) :
    Returns (nested K) (d + 1) (R s) s [some (.cooked t pc)] := by
  rw [Cooked.dispatch] at hrun
  dsimp only at hrun
  have hstopped : ∀ b, pc.run K s t = (s.modify t fun y => { y with stopped := b },
      (K.kind t).write t ++ [.cooked t .top]) →
      Returns (nested K) (d + 1) (R s) s [some (.cooked t pc)] := by
    intro b hrun
    have hR := h.stop hP b
    have hP' := h.keep hP hR
    refine cooked_writes hrun h.other le_rfl (h.write hP') fun s'' hs'' => ?_
    exact h.after (h.trans hR hs''.1) (h.top (h.keep hP' hs''.1))
  split at hrun
  case isTrue => exact cooked_goes hrun (by omega) (h.kill _ hP le_rfl)
  split at hrun
  case isTrue =>
    split at hrun
    case isTrue => exact cooked_goes hrun (by omega) (h.top hP)
    case isFalse =>
      exact cooked_goes hrun (by omega) (h.erase hP false fun s' hP' _ _ => h.dec_top hP')
  split at hrun
  case isTrue => exact hstopped true hrun
  split at hrun
  case isTrue => exact hstopped false hrun
  split at hrun
  case isTrue => exact cooked_goes hrun (by omega) (h.top hP)
  case isFalse =>
    -- the line count may change
    have hnext : ∀ s', R s s' → (s'.tty t).termios = (s.tty t).termios →
        pc.run K s t = (s', [.cooked t (if (s.tty t).termios.L ECHO then
          .echo (Cooked.echoed (s.tty t).termios c) c else .store c)]) →
        Returns (nested K) (d + 1) (R s) s [some (.cooked t pc)] := by
      intro s' hR htermios hrun
      have hP' := h.keep hP hR
      refine cooked_goes hrun (by omega) (h.after hR ?_)
      split
      case isTrue hecho => exact h.echo hP' (by rwa [htermios]) _ c
      case isFalse => exact h.store hP' c
    split at hrun
    case isTrue =>
      refine hnext _ (h.secondary hP _).1 ?_ hrun
      exact Ttys.modifySecondary_termios s t t _
    case isFalse => exact hnext s (h.refl hP) rfl hrun

theorem got (h : Walk K t u d P R κ) (hP : P s) (c : BitVec 8) :
    Returns (nested K) (d + 1) (R s) s [some (.cooked t (.got c))] := by
  cases htrans : Cooked.translate K (s.tty t).termios c with
  | none =>
    have hrun : (Cooked.got c).run K s t = (s, [.cooked t .top]) := by rw [Cooked.run, htrans]
    exact cooked_goes hrun (by omega) (h.top hP)
  | some x =>
    refine h.dispatch (c := x) hP ?_
    rw [Cooked.run, htrans]

end Walk

/-- The head of the loop of `copy_to_cooked`. -/
theorem cooked_top (hd : 1 ≤ d)
    (hstop : (s.tty t).readQ.ring.Empty ∨ (s.tty t).secondary.ring.Full → Q s)
    (hgot : ¬ (s.tty t).readQ.ring.Empty → ¬ (s.tty t).secondary.ring.Full →
      Returns (nested K) d Q (s.modifyRead t .incTail)
        [some (.cooked t (.got (s.tty t).readQ.ring.front))]) :
    Returns (nested K) d Q s [some (.cooked t .top)] := by
  by_cases hempty : (s.tty t).readQ.ring.Empty
  · exact cooked_ends (if_pos hempty) hd (hstop (.inl hempty))
  · refine cooked_goes (if_neg hempty) hd ?_
    by_cases hfull : (s.tty t).secondary.ring.Full
    · exact cooked_ends (if_pos hfull) hd (hstop (.inr hfull))
    · exact cooked_goes (if_neg hfull) hd (cooked_goes rfl hd (hgot hempty hfull))

end

/-! ### One side does not echo -/

section

variable {K : TtyTable T} {E F : T} {s s' s'' : Ttys T} {n : ℕ}

theorem reads_incTail {t : T} (h : ¬ (s.tty t).readQ.ring.Empty) :
    (s.modifyRead t .incTail).reads t + 1 = s.reads t := by
  rw [Ttys.reads_modifyRead_self]
  exact RingBuffer.count_pop h

/-- A character is taken on `E`. -/
theorem supply_incTail (h : ¬ (s.tty E).readQ.ring.Empty) :
    supply E F (s.modifyRead E .incTail) + 1 = supply E F s := by
  have hreads := reads_incTail h
  rw [supply, supply, Ttys.writes_modifyRead]
  omega

theorem count_lt {q : TtyQueue} : q.ring.count < 1024 := Nat.lt_succ_of_le q.ring.count_le

namespace Spent

omit [DecidableEq T] in
theorem refl (h : ¬ (s.tty F).termios.L ECHO) : Spent E F s s := ⟨h, le_rfl⟩

omit [DecidableEq T] in
theorem trans (h : Spent E F s s') (h' : Spent E F s' s'') : Spent E F s s'' :=
  ⟨h'.quiet, h'.le.trans h.le⟩

omit [DecidableEq T] in
/-- A change of queues that do not count. -/
theorem of_eq (h : ¬ (s.tty F).termios.L ECHO)
    (htermios : (s'.tty F).termios = (s.tty F).termios) (hreads : s'.reads E = s.reads E)
    (hwrites : s'.writes F = s.writes F) : Spent E F s s' := by
  refine ⟨by rwa [htermios], ?_⟩
  rw [supply, supply, hreads, hwrites]

end Spent

/-- What `copy_to_cooked` does on `E`: it takes a character, or nothing happens. -/
def SpecE (K : TtyTable T) (E F : T) (n : ℕ) : Prop := ∀ s : Ttys T,
  ¬ (s.tty F).termios.L ECHO → supply E F s ≤ n → Returns (nested K) (4 * n + 1)
    (fun s' => Spent E F s s' ∧ (supply E F s' = supply E F s → s' = s ∧
      ((s.tty E).readQ.ring.Empty ∨ (s.tty E).secondary.ring.Full))) s [some (.cooked E .top)]

/-- What `pty_copy` does from `F` to `E`. -/
def SpecFE (K : TtyTable T) (E F : T) (n : ℕ) : Prop := ∀ s : Ttys T,
  ¬ (s.tty F).termios.L ECHO → supply E F s ≤ n → Returns (nested K) (4 * n + 2)
    (fun s' => Spent E F s s' ∧ (supply E F s' = supply E F s →
      s'.reads F = s.reads F ∧ s'.writes E = s.writes E ∧ s'.seconds E = s.seconds E)) s
    [some (.pty F E)]

/-- The side `F` has no more to do than before, unless a character is taken on `E`. -/
structure Drained (E F : T) (s s' : Ttys T) : Prop extends Spent E F s s' where
  idle : supply E F s' = supply E F s →
    s'.reads F ≤ s.reads F ∧ s'.writes E = s.writes E ∧ s'.seconds E = s.seconds E

namespace Drained

omit [DecidableEq T] in
theorem refl (h : ¬ (s.tty F).termios.L ECHO) : Drained E F s s :=
  ⟨.refl h, fun _ => ⟨le_rfl, rfl, rfl⟩⟩

omit [DecidableEq T] in
theorem trans (h : Drained E F s s') (h' : Drained E F s' s'') : Drained E F s s'' := by
  have hle := h.le
  have hle' := h'.le
  refine ⟨h.toSpent.trans h'.toSpent, fun heq => ?_⟩
  obtain ⟨hreads, hwrites, hseconds⟩ := h.idle (by omega)
  obtain ⟨hreads', hwrites', hseconds'⟩ := h'.idle (by omega)
  exact ⟨hreads'.trans hreads, hwrites'.trans hwrites, hseconds'.trans hseconds⟩

omit [DecidableEq T] in
/-- What is to be taken on `E`, and then what is to be taken on `F`. -/
theorem measure_le (h : Drained E F s s') :
    1024 * supply E F s' + s'.reads F ≤ 1024 * supply E F s + s.reads F := by
  have hle := h.le
  have hcount : s'.reads F < 1024 := count_lt
  by_cases heq : supply E F s' = supply E F s
  · have hreads := (h.idle heq).1
    omega
  · omega

end Drained

/-- What `copy_to_cooked` does on `F`. -/
def SpecF (K : TtyTable T) (E F : T) (n : ℕ) : Prop := ∀ s : Ttys T,
  ¬ (s.tty F).termios.L ECHO → supply E F s ≤ n → Returns (nested K) (4 * n + 3)
    (fun s' => Drained E F s s' ∧ (supply E F s' = supply E F s →
      ¬ (s.tty F).readQ.ring.Empty → ¬ (s.tty F).secondary.ring.Full → s'.reads F < s.reads F)) s
    [some (.cooked F .top)]

/-- What `pty_copy` does from `E` to `F`. -/
def SpecEF (K : TtyTable T) (E F : T) (n : ℕ) : Prop := ∀ s : Ttys T,
  ¬ (s.tty F).termios.L ECHO → supply E F s ≤ n → Returns (nested K) (4 * n + 4)
    (fun s' => Spent E F s s' ∧ (supply E F s' = supply E F s → s'.seconds E = s.seconds E)) s
    [some (.pty E F)]

/-- Nothing is there to be taken. -/
theorem specE_zero : SpecE K E F 0 := by
  intro s hquiet hn
  refine cooked_top le_rfl (fun hstop => ⟨.refl hquiet, fun _ => ⟨rfl, hstop⟩⟩)
    fun hempty _ => ?_
  have hsupply := supply_incTail (F := F) hempty
  omega

namespace Sides

variable (hsides : Sides K E F)

include hsides

/-- With fewer characters to take all calls end: so they do after one is taken. -/
theorem specE_succ (hE : SpecE K E F n) (hEF : SpecEF K E F n) : SpecE K E F (n + 1) := by
  have hwalk : Walk K E F (4 * n + 4)
      (fun s => ¬ (s.tty F).termios.L ECHO ∧ supply E F s ≤ n) (Spent E F) (supply E F) := by
    refine ⟨Spent.trans, fun h h' => ⟨h'.quiet, h'.le.trans h.2⟩, fun h => .refl h.1,
      fun {s} h f => ?_, fun {s} h b => ?_, fun {s} h _ c => ?_, hsides.left, fun {s} h => ?_,
      fun {s} h => ?_⟩
    · refine ⟨.of_eq h.1 (Ttys.modifySecondary_termios s E F f)
        (Ttys.reads_modifySecondary s E E f) (Ttys.writes_modifySecondary s E F f), ?_⟩
      rw [supply, supply, Ttys.reads_modifySecondary, Ttys.writes_modifySecondary]
    · exact .of_eq h.1 (Ttys.modify_keeps TtyStruct.termios s E F fun _ => rfl)
        (Ttys.modify_keeps (fun y => y.readQ.ring.count) s E E fun _ => rfl)
        (Ttys.modify_keeps (fun y => y.writeQ.ring.count) s E F fun _ => rfl)
    · have hwrites := Ttys.writes_modifyWrite_of_ne s E F (·.putch c) (Ne.symm hsides.ne)
      refine ⟨.of_eq h.1 (Ttys.modifyWrite_termios s E F _) (Ttys.reads_modifyWrite s E E _)
        hwrites, ?_⟩
      rw [supply, supply, Ttys.reads_modifyWrite, hwrites]
    · exact (hEF s h.1 h.2).mono le_rfl fun s' hs' => ⟨hs'.1, fun _ => ⟨hs'.1.le, hs'.2⟩⟩
    · exact (hE s h.1 h.2).mono (by omega) fun s' hs' => hs'.1
  intro s hquiet hn
  refine cooked_top (by omega) (fun hstop => ⟨.refl hquiet, fun _ => ⟨rfl, hstop⟩⟩)
    fun hempty _ => ?_
  have hsupply := supply_incTail (F := F) hempty
  have hquiet' : ¬ ((s.modifyRead E .incTail).tty F).termios.L ECHO := by
    rwa [Ttys.modifyRead_termios]
  refine (hwalk.got ⟨hquiet', by omega⟩ _).mono (by omega) fun s' hs' => ?_
  have hle := hs'.le
  exact ⟨⟨hs'.quiet, by omega⟩, fun heq => by omega⟩

omit hsides in
theorem termios_moved (t u t' : T) : ((s.moved t u).tty t').termios = (s.tty t').termios := by
  rw [Ttys.moved, Ttys.modifyRead_termios, Ttys.modifyWrite_termios]

/-- What goes from `F` to `E` is still to be taken. -/
theorem moved_right (hempty : ¬ (s.tty F).writeQ.ring.Empty) (hfull : ¬ (s.tty E).readQ.ring.Full) :
    supply E F (s.moved F E) = supply E F s ∧ (s.moved F E).writes F + 1 = s.writes F ∧
      (s.moved F E).reads F = s.reads F ∧ (s.moved F E).writes E = s.writes E ∧
      (s.moved F E).seconds E = s.seconds E := by
  have hwrites : (s.modifyWrite F .incTail).writes F + 1 = s.writes F := by
    rw [Ttys.writes_modifyWrite_self]
    exact RingBuffer.count_pop hempty
  have hkept : ((s.modifyWrite F .incTail).tty E).readQ = (s.tty E).readQ :=
    Ttys.modify_keeps TtyStruct.readQ s F E fun _ => rfl
  have hreads : (s.moved F E).reads E = s.reads E + 1 := by
    rw [Ttys.moved, Ttys.reads_modifyRead_self, hkept]
    exact RingBuffer.count_push _ hfull
  have hmoved : (s.moved F E).writes F = (s.modifyWrite F .incTail).writes F := by
    rw [Ttys.moved, Ttys.writes_modifyRead]
  refine ⟨by rw [supply, supply]; omega, by omega, ?_, ?_, ?_⟩
  · rw [Ttys.moved, Ttys.reads_modifyRead_of_ne _ _ _ _ (Ne.symm hsides.ne),
      Ttys.reads_modifyWrite]
  · rw [Ttys.moved, Ttys.writes_modifyRead, Ttys.writes_modifyWrite_of_ne _ _ _ _ hsides.ne]
  · rw [Ttys.moved, Ttys.seconds_modifyRead, Ttys.seconds_modifyWrite]

theorem specFE (hE : SpecE K E F n) : SpecFE K E F n := by
  -- a character goes over, or one is taken on `E`
  have hloop : ∀ k s, ¬ (s.tty F).termios.L ECHO → supply E F s ≤ n →
      1024 * supply E F s + s.writes F ≤ k → Returns (nested K) (4 * n + 2)
        (fun s' => Spent E F s s' ∧ (supply E F s' = supply E F s →
          s'.reads F = s.reads F ∧ s'.writes E = s.writes E ∧ s'.seconds E = s.seconds E)) s
        [some (.pty F E)] := by
    intro k
    induction k using Nat.strong_induction_on with
    | h k ih =>
      intro s hquiet hn hk
      have hlast : ∀ s₁, ¬ (s₁.tty F).termios.L ECHO → supply E F s₁ = supply E F s →
          s₁.reads F = s.reads F → s₁.writes E = s.writes E → s₁.seconds E = s.seconds E →
          Returns (nested K) (4 * n + 1) (fun s' => Spent E F s s' ∧
            (supply E F s' = supply E F s → s'.reads F = s.reads F ∧ s'.writes E = s.writes E ∧
              s'.seconds E = s.seconds E)) s₁ [some (.cooked E .top)] := by
        intro s₁ hquiet₁ hsupply hreads hwrites hseconds
        refine (hE s₁ hquiet₁ (by omega)).mono le_rfl fun s' hs' => ?_
        have hle := hs'.1.le
        refine ⟨⟨hs'.1.quiet, by omega⟩, fun heq => ?_⟩
        obtain ⟨rfl, -⟩ := hs'.2 (by omega)
        exact ⟨hreads, hwrites, hseconds⟩
      by_cases hgo : (s.tty F).stopped = true ∨ (s.tty F).writeQ.ring.Empty
      · exact pty_stops le_rfl (hgo.imp_right .inl) (hlast s hquiet rfl rfl rfl rfl)
      · have hempty : ¬ (s.tty F).writeQ.ring.Empty := fun h => hgo (.inr h)
        by_cases hfull : (s.tty E).readQ.ring.Full
        · by_cases hroom : (s.tty E).secondary.ring.Full
          · exact pty_stops le_rfl (.inr (.inr ⟨hfull, hroom⟩)) (hlast s hquiet rfl rfl rfl rfl)
          · refine pty_again le_rfl hgo hfull hroom (hE s hquiet hn) fun s₁ hs₁ => ?_
            have hle := hs₁.1.le
            -- the read queue of `E` is full, so that a character is taken
            have hlt : supply E F s₁ ≠ supply E F s := by
              intro heq
              obtain ⟨-, hnone | hnone⟩ := hs₁.2 heq
              · rw [RingBuffer.full_iff] at hfull
                rw [RingBuffer.empty_iff] at hnone
                omega
              · exact hroom hnone
            have hcount : s₁.writes F < 1024 := count_lt
            refine (ih _ ?_ s₁ hs₁.1.quiet (by omega) le_rfl).mono le_rfl fun s' hs' => ?_
            · omega
            · have hle' := hs'.1.le
              exact ⟨hs₁.1.trans hs'.1, fun heq => by omega⟩
        · obtain ⟨hsupply, hwritesF, hreads, hwrites, hseconds⟩ :=
            hsides.moved_right hempty hfull
          have hquiet' : ¬ ((s.moved F E).tty F).termios.L ECHO := by rwa [termios_moved]
          refine pty_moves le_rfl hgo hfull
            (hlast _ hquiet' hsupply hreads hwrites hseconds) ?_
          refine (ih _ ?_ _ hquiet' (by omega) le_rfl).mono le_rfl fun s' hs' => ?_
          · omega
          · have hle := hs'.1.le
            refine ⟨⟨hs'.1.quiet, by omega⟩, fun heq => ?_⟩
            obtain ⟨hr, hw, hs⟩ := hs'.2 (by omega)
            exact ⟨hr.trans hreads, hw.trans hwrites, hs.trans hseconds⟩
  exact fun s hquiet hn => hloop _ s hquiet hn le_rfl

theorem specF (hFE : SpecFE K E F n) : SpecF K E F n := by
  have hloop : ∀ k s, ¬ (s.tty F).termios.L ECHO → supply E F s ≤ n →
      1024 * supply E F s + s.reads F ≤ k → Returns (nested K) (4 * n + 3)
        (fun s' => Drained E F s s' ∧ (supply E F s' = supply E F s →
          ¬ (s.tty F).readQ.ring.Empty → ¬ (s.tty F).secondary.ring.Full →
            s'.reads F < s.reads F)) s [some (.cooked F .top)] := by
    intro k
    induction k using Nat.strong_induction_on with
    | h k ih =>
      have hwalk : Walk K F E (4 * n + 2) (fun s => ¬ (s.tty F).termios.L ECHO ∧
          supply E F s ≤ n ∧ 1024 * supply E F s + s.reads F < k) (Drained E F) fun _ => 0 := by
        refine ⟨Drained.trans, fun h h' => ?_, fun h => .refl h.1, fun {s} h f => ⟨?_, rfl⟩,
          fun {s} h b => ?_, fun h hecho => absurd hecho h.1, hsides.right, fun {s} h => ?_,
          fun {s} h => ?_⟩
        · have hle := h'.le
          have hmeasure := h'.measure_le
          exact ⟨h'.quiet, by omega, by omega⟩
        · refine ⟨.of_eq h.1 (Ttys.modifySecondary_termios s F F f)
            (Ttys.reads_modifySecondary s F E f) (Ttys.writes_modifySecondary s F F f), fun _ => ?_⟩
          rw [Ttys.reads_modifySecondary, Ttys.writes_modifySecondary,
            Ttys.seconds_modifySecondary_of_ne _ _ _ _ hsides.ne]
          exact ⟨le_rfl, rfl, rfl⟩
        · have hreads := fun t => Ttys.modify_keeps (fun y => y.readQ.ring.count) s F t
            (f := fun y => { y with stopped := b }) fun _ => rfl
          have hwrites := fun t => Ttys.modify_keeps (fun y => y.writeQ.ring.count) s F t
            (f := fun y => { y with stopped := b }) fun _ => rfl
          have hseconds := fun t => Ttys.modify_keeps (fun y => y.secondary.ring.count) s F t
            (f := fun y => { y with stopped := b }) fun _ => rfl
          exact ⟨.of_eq h.1 (Ttys.modify_keeps TtyStruct.termios s F F fun _ => rfl) (hreads E)
            (hwrites F), fun _ => ⟨(hreads F).le, hwrites E, hseconds E⟩⟩
        · refine (hFE s h.1 h.2.1).mono le_rfl fun s' hs' => ?_
          refine ⟨⟨hs'.1, fun heq => ?_⟩, fun hecho => absurd hecho h.1⟩
          obtain ⟨hreads, hwrites, hseconds⟩ := hs'.2 heq
          exact ⟨hreads.le, hwrites, hseconds⟩
        · exact (ih _ h.2.2 s h.1 h.2.1 le_rfl).mono le_rfl fun s' hs' => hs'.1
      intro s hquiet hn hk
      refine cooked_top (by omega) (fun hstop => ⟨.refl hquiet, fun _ hempty hfull => ?_⟩)
        fun hempty hfull => ?_
      · exact absurd hstop (not_or.mpr ⟨hempty, hfull⟩)
      · have hreads := reads_incTail hempty
        have hquiet' : ¬ ((s.modifyRead F .incTail).tty F).termios.L ECHO := by
          rwa [Ttys.modifyRead_termios]
        have hsupply : supply E F (s.modifyRead F .incTail) = supply E F s := by
          rw [supply, supply, Ttys.writes_modifyRead, Ttys.reads_modifyRead_of_ne _ _ _ _ hsides.ne]
        refine (hwalk.got ⟨hquiet', by omega, by omega⟩ _).mono le_rfl fun s' hs' => ?_
        have hle := hs'.le
        refine ⟨⟨⟨hs'.quiet, by omega⟩, fun heq => ?_⟩, fun heq _ _ => ?_⟩
        · obtain ⟨hr, hw, hs⟩ := hs'.idle (by omega)
          rw [Ttys.writes_modifyRead] at hw
          rw [Ttys.seconds_modifyRead] at hs
          exact ⟨by omega, hw, hs⟩
        · have hr := (hs'.idle (by omega)).1
          omega
  exact fun s hquiet hn => hloop _ s hquiet hn le_rfl

/-- What goes from `E` to `F` does not count. -/
theorem moved_left (hempty : ¬ (s.tty E).writeQ.ring.Empty) (hfull : ¬ (s.tty F).readQ.ring.Full) :
    supply E F (s.moved E F) = supply E F s ∧ (s.moved E F).writes E + 1 = s.writes E ∧
      (s.moved E F).reads F = s.reads F + 1 ∧ (s.moved E F).seconds E = s.seconds E := by
  have hwrites : (s.modifyWrite E .incTail).writes E + 1 = s.writes E := by
    rw [Ttys.writes_modifyWrite_self]
    exact RingBuffer.count_pop hempty
  have hkept : ((s.modifyWrite E .incTail).tty F).readQ = (s.tty F).readQ :=
    Ttys.modify_keeps TtyStruct.readQ s E F fun _ => rfl
  have hreads : (s.moved E F).reads F = s.reads F + 1 := by
    rw [Ttys.moved, Ttys.reads_modifyRead_self, hkept]
    exact RingBuffer.count_push _ hfull
  have hmoved : (s.moved E F).writes E = (s.modifyWrite E .incTail).writes E := by
    rw [Ttys.moved, Ttys.writes_modifyRead]
  refine ⟨?_, by omega, hreads, ?_⟩
  · rw [supply, supply, Ttys.moved, Ttys.reads_modifyRead_of_ne _ _ _ _ hsides.ne,
      Ttys.reads_modifyWrite, Ttys.writes_modifyRead,
      Ttys.writes_modifyWrite_of_ne _ _ _ _ (Ne.symm hsides.ne)]
  · rw [Ttys.moved, Ttys.seconds_modifyRead, Ttys.seconds_modifyWrite]

theorem specEF (hF : SpecF K E F n) : SpecEF K E F n := by
  -- a character goes over, or one is taken on `F`, or one on `E`
  have hloop : ∀ k s, ¬ (s.tty F).termios.L ECHO → supply E F s ≤ n →
      4096 * supply E F s + 2 * s.writes E + s.reads F ≤ k → Returns (nested K) (4 * n + 4)
        (fun s' => Spent E F s s' ∧ (supply E F s' = supply E F s → s'.seconds E = s.seconds E)) s
        [some (.pty E F)] := by
    intro k
    induction k using Nat.strong_induction_on with
    | h k ih =>
      intro s hquiet hn hk
      have hlast : ∀ s₁, ¬ (s₁.tty F).termios.L ECHO → supply E F s₁ = supply E F s →
          s₁.seconds E = s.seconds E → Returns (nested K) (4 * n + 3) (fun s' => Spent E F s s' ∧
            (supply E F s' = supply E F s → s'.seconds E = s.seconds E)) s₁
            [some (.cooked F .top)] := by
        intro s₁ hquiet₁ hsupply hseconds
        refine (hF s₁ hquiet₁ (by omega)).mono le_rfl fun s' hs' => ?_
        have hle := hs'.1.le
        refine ⟨⟨hs'.1.quiet, by omega⟩, fun heq => ?_⟩
        exact (hs'.1.idle (by omega)).2.2.trans hseconds
      by_cases hgo : (s.tty E).stopped = true ∨ (s.tty E).writeQ.ring.Empty
      · exact pty_stops le_rfl (hgo.imp_right .inl) (hlast s hquiet rfl rfl)
      · have hempty : ¬ (s.tty E).writeQ.ring.Empty := fun h => hgo (.inr h)
        by_cases hfull : (s.tty F).readQ.ring.Full
        · by_cases hroom : (s.tty F).secondary.ring.Full
          · exact pty_stops le_rfl (.inr (.inr ⟨hfull, hroom⟩)) (hlast s hquiet rfl rfl)
          · refine pty_again le_rfl hgo hfull hroom (hF s hquiet hn) fun s₁ hs₁ => ?_
            have hle := hs₁.1.le
            have hnone : ¬ (s.tty F).readQ.ring.Empty := fun hnone => by
              rw [RingBuffer.full_iff] at hfull
              rw [RingBuffer.empty_iff] at hnone
              omega
            have hreads : s₁.reads F < 1024 := count_lt
            have hwrites : s₁.writes E < 1024 := count_lt
            -- the read queue of `F` is full, so that a character is taken
            have hlt : 4096 * supply E F s₁ + 2 * s₁.writes E + s₁.reads F <
                4096 * supply E F s + 2 * s.writes E + s.reads F := by
              by_cases heq : supply E F s₁ = supply E F s
              · have hfewer := hs₁.2 heq hnone hroom
                have hsame := (hs₁.1.idle heq).2.1
                omega
              · omega
            refine (ih _ (by omega) s₁ hs₁.1.quiet (by omega) le_rfl).mono le_rfl fun s' hs' => ?_
            have hle' := hs'.1.le
            refine ⟨hs₁.1.toSpent.trans hs'.1, fun heq => ?_⟩
            exact (hs'.2 (by omega)).trans (hs₁.1.idle (by omega)).2.2
        · obtain ⟨hsupply, hwrites, hreads, hseconds⟩ := hsides.moved_left hempty hfull
          have hquiet' : ¬ ((s.moved E F).tty F).termios.L ECHO := by rwa [termios_moved]
          refine pty_moves le_rfl hgo hfull (hlast _ hquiet' hsupply hseconds) ?_
          refine (ih _ (by omega) _ hquiet' (by omega) le_rfl).mono le_rfl fun s' hs' => ?_
          have hle := hs'.1.le
          refine ⟨⟨hs'.1.quiet, by omega⟩, fun heq => ?_⟩
          exact (hs'.2 (by omega)).trans hseconds
  exact fun s hquiet hn => hloop _ s hquiet hn le_rfl

/-- All four calls, by the number of the characters that `E` has yet to take. -/
theorem specs (n : ℕ) :
    SpecE K E F n ∧ SpecFE K E F n ∧ SpecF K E F n ∧ SpecEF K E F n := by
  have hall : ∀ n, SpecE K E F n → SpecE K E F n ∧ SpecFE K E F n ∧ SpecF K E F n ∧
      SpecEF K E F n := by
    intro n hE
    have hFE := hsides.specFE hE
    have hF := hsides.specF hFE
    exact ⟨hE, hFE, hF, hsides.specEF hF⟩
  induction n with
  | zero => exact hall 0 specE_zero
  | succ n ih => exact hall (n + 1) (hsides.specE_succ ih.1 ih.2.2.2)

end Sides

end

/-! ### Both sides echo -/

/-- An ordinary character, which is echoed as it is. -/
structure Plain (K : TtyTable T) (m : Termios) (c : BitVec 8) : Prop where
  lower : K.lower c = c
  ascii : c.toNat < 128
  printed : 32 ≤ c.toNat
  ordinary : ∀ i, m.cc i ≠ c

section

variable {K : TtyTable T} {E F : T} {s : Ttys T} {m m' : Termios} {c : BitVec 8}

namespace Plain

omit [DecidableEq T] in
theorem not_is (h : Plain K m c) (i : Fin 17) : ¬ m.Is c i := by
  rintro ⟨-, heq⟩
  have hc : c.toInt = c.toNat := BitVec.toInt_eq_toNat_of_lt (by have := h.ascii; omega)
  refine h.ordinary i (BitVec.eq_of_toNat_eq ?_)
  omega

omit [DecidableEq T] in
theorem ne_of_lt (h : Plain K m c) {x : BitVec 8} (hx : x.toNat < 32) : c ≠ x := by
  rintro rfl
  have hprinted := h.printed
  omega

omit [DecidableEq T] in
theorem translate (h : Plain K m c) : Cooked.translate K m c = some c := by
  rw [Cooked.translate, if_neg (h.ne_of_lt (by decide)), if_neg fun hten => h.ne_of_lt (by decide) hten.1]
  rw [Option.map_some, h.lower, ite_self]

theorem dispatch (h : Plain K m c) (hm : (s.tty E).termios = m) (hecho : m.L ECHO) :
    Cooked.dispatch K s E c = (s, [.cooked E (.echo [c] c)]) := by
  have hnot := h.not_is
  have hdelim : ¬ m.Delim c := not_or.mpr ⟨h.ne_of_lt (by decide), hnot VEOF⟩
  have hechoed : Cooked.echoed m c = [c] := by
    have hc : c.toInt = c.toNat := BitVec.toInt_eq_toNat_of_lt (by have := h.ascii; omega)
    have hprinted := h.printed
    rw [Cooked.echoed, if_neg (h.ne_of_lt (by decide)), if_neg (by omega)]
  subst hm
  rw [Cooked.dispatch]
  dsimp only
  rw [if_neg fun h => hnot _ h.2, if_neg fun h => hnot _ h.2, if_neg fun h => hnot _ h.2,
    if_neg fun h => hnot _ h.2, if_neg fun h => h.2.elim (hnot _) fun h => h.elim (hnot _) (hnot _),
    if_neg hdelim, if_pos hecho, hechoed]

end Plain

/-- The character `c` is before `E`, and nothing else is on its way. -/
structure Travels (K : TtyTable T) (E F : T) (c : BitVec 8) (s : Ttys T) : Prop where
  here : (s.tty E).readQ.ring.contents = [c]
  there : (s.tty F).readQ.ring.contents = []
  clear (t : T) (h : t = E ∨ t = F) : (s.tty t).writeQ.ring.contents = [] ∧
    ¬ (s.tty t).secondary.ring.Full ∧ (s.tty t).stopped = false ∧ (s.tty t).termios.L ECHO ∧
      Plain K (s.tty t).termios c

theorem next_cooked {pc pc' : Cooked} {t : T} {s' : Ttys T} {rest : List (Option (Frame T))}
    (hrun : pc.run K s t = (s', [.cooked t pc'])) :
    Next (nested K) (s, some (.cooked t pc) :: rest) (s', some (.cooked t pc') :: rest) := by
  refine ⟨false, _, rest, rfl, ?_⟩
  rw [nested_cooked, hrun]
  rfl

theorem next_pty {s' : Ttys T} {rest : List (Option (Frame T))}
    (hrun : ptyCopy s E F false = (s', [.pty E F])) :
    Next (nested K) (s, some (.pty E F) :: rest) (s', some (.pty E F) :: rest) := by
  have hne : ([.pty E F] : List (Frame T)) ≠ [.cooked F .top] := by simp
  refine ⟨false, _, rest, rfl, ?_⟩
  rw [nested]
  dsimp only [Frame.run]
  rw [hrun]
  dsimp only
  rw [if_neg hne]
  rfl

theorem next_pty_last {s' : Ttys T} {rest : List (Option (Frame T))}
    (hrun : ptyCopy s E F false = (s', [.cooked F .top])) :
    Next (nested K) (s, some (.pty E F) :: rest) (s', some (.cooked F .top) :: none :: rest) := by
  refine ⟨false, _, rest, rfl, ?_⟩
  rw [nested]
  dsimp only [Frame.run]
  rw [hrun]
  dsimp only
  rw [if_pos rfl]
  rfl

theorem moved_tty_left (hne : E ≠ F) (s : Ttys T) :
    (s.moved E F).tty E = { s.tty E with writeQ := (s.tty E).writeQ.incTail } := by
  rw [Ttys.moved, Ttys.modifyRead, Ttys.modify_tty_of_ne hne, Ttys.modifyWrite,
    Ttys.modify_tty_self]

theorem moved_tty_right (hne : E ≠ F) (s : Ttys T) : (s.moved E F).tty F =
    { s.tty F with readQ := (s.tty F).readQ.putch (s.tty E).writeQ.ring.front } := by
  rw [Ttys.moved, Ttys.modifyRead, Ttys.modify_tty_self, Ttys.modifyWrite,
    Ttys.modify_tty_of_ne hne.symm]

theorem contents_one {q : TtyQueue} (h : q.ring.contents = [c]) :
    ¬ q.ring.Empty ∧ q.ring.front = c ∧ q.incTail.ring.contents = [] := by
  have hempty : ¬ q.ring.Empty := fun hempty => by
    rw [RingBuffer.empty_iff_contents, h] at hempty
    cases hempty
  have hpop := TtyQueue.contents_incTail hempty
  rw [h] at hpop
  obtain ⟨hfront, hrest⟩ := List.cons.inj hpop
  exact ⟨hempty, hfront.symm, hrest.symm⟩

theorem contents_none {q : TtyQueue} (h : q.ring.contents = []) (c : BitVec 8) :
    ¬ q.ring.Full ∧ (q.putch c).ring.contents = [c] := by
  have hfull : ¬ q.ring.Full := fun hfull => by
    rw [RingBuffer.full_iff, ← RingBuffer.length_contents, h] at hfull
    cases hfull
  exact ⟨hfull, (TtyQueue.contents_putch c hfull).trans (congrArg (· ++ [c]) h)⟩

/-- The echo of the character goes to the other side, and is the only character there. -/
theorem Travels.round (hsides : Sides K E F) (h : Travels K E F c s)
    (rest : List (Option (Frame T))) : ∃ s', Travels K F E c s' ∧
      Relation.TransGen (Next (nested K)) (s, some (.cooked E .top) :: rest)
        (s', some (.cooked F .top) :: none :: some (.cooked E (.store c)) :: rest) := by
  obtain ⟨hwriteE, hroomE, hgoE, hechoE, hplainE⟩ := h.clear E (.inl rfl)
  obtain ⟨hwriteF, hroomF, hgoF, hechoF, hplainF⟩ := h.clear F (.inr rfl)
  obtain ⟨hempty, hfront, hgone⟩ := contents_one h.here
  -- the character is taken, and its echo put
  let s₁ := s.modifyRead E .incTail
  let s₂ := s₁.modifyWrite E (·.putch c)
  let s₃ := s₂.moved E F
  have h₁ : s₁.tty E = { s.tty E with readQ := (s.tty E).readQ.incTail } :=
    Ttys.modify_tty_self _ _ _
  have h₂ : s₂.tty E = { s₁.tty E with writeQ := (s₁.tty E).writeQ.putch c } :=
    Ttys.modify_tty_self _ _ _
  have h₂F : s₂.tty F = s.tty F :=
    (Ttys.modify_tty_of_ne hsides.ne.symm _ _).trans (Ttys.modify_tty_of_ne hsides.ne.symm _ _)
  obtain ⟨-, hput⟩ := contents_none hwriteE c
  have hwrite₂ : (s₂.tty E).writeQ.ring.contents = [c] := by
    rw [h₂, h₁]
    exact hput
  obtain ⟨hempty₂, hfront₂, hgone₂⟩ := contents_one hwrite₂
  obtain ⟨hroom₂, hthere⟩ := contents_none h.there c
  have h₃E : s₃.tty E = { s₂.tty E with writeQ := (s₂.tty E).writeQ.incTail } :=
    moved_tty_left hsides.ne s₂
  have h₃F : s₃.tty F = { s.tty F with readQ := (s.tty F).readQ.putch c } := by
    refine (moved_tty_right hsides.ne s₂).trans ?_
    rw [h₂F, hfront₂]
  refine ⟨s₃, ⟨?_, ?_, ?_⟩, ?_⟩
  · rw [h₃F]
    exact hthere
  · rw [h₃E, h₂, h₁]
    exact hgone
  · rintro t (rfl | rfl)
    · rw [h₃F]
      exact ⟨hwriteF, hroomF, hgoF, hechoF, hplainF⟩
    · rw [h₃E]
      refine ⟨hgone₂, ?_⟩
      rw [h₂, h₁]
      exact ⟨hroomE, hgoE, hechoE, hplainE⟩
  · have hgot : (Cooked.got c).run K s₁ E = (s₁, [.cooked E (.echo [c] c)]) := by
      have htermios : (s₁.tty E).termios = (s.tty E).termios := by rw [h₁]
      rw [Cooked.run, htermios, hplainE.translate]
      exact hplainE.dispatch htermios hechoE
    have hget : Cooked.get.run K s E = (s₁, [.cooked E (.got c)]) := by
      rw [Cooked.run, hfront]
    have hecho : Next (nested K) (s₂, some (.cooked E (.echo [] c)) :: rest)
        (s₂, some (.pty E F) :: some (.cooked E (.store c)) :: rest) := by
      refine ⟨false, _, rest, rfl, ?_⟩
      rw [nested_cooked, Cooked.run, hsides.left]
      rfl
    have hgo₂ : ¬ ((s₂.tty E).stopped = true ∨ (s₂.tty E).writeQ.ring.Empty) := by
      refine not_or.mpr ⟨?_, hempty₂⟩
      rw [h₂, h₁]
      exact Bool.eq_false_iff.mp hgoE
    have hmove : ptyCopy s₂ E F false = (s₃, [.pty E F]) := by
      rw [ptyCopy, if_neg hgo₂, h₂F, if_neg hroom₂]
      rfl
    have hempty₃ : (s₃.tty E).writeQ.ring.Empty := by
      rw [h₃E]
      exact RingBuffer.empty_iff_contents.mpr hgone₂
    have hlast : ptyCopy s₃ E F false = (s₃, [.cooked F .top]) := by
      rw [ptyCopy, if_pos (.inr hempty₃)]
    refine .head (next_cooked (if_neg hempty)) (.head (next_cooked (if_neg hroomE)) ?_)
    refine .head (next_cooked hget) (.head (next_cooked hgot) ?_)
    refine .head (next_cooked rfl) (.head hecho (.head (next_pty hmove) ?_))
    exact .single (next_pty_last hlast)

/-- The character goes round for ever. -/
theorem Travels.not_acc (hsides : Sides K E F) (hsides' : Sides K F E) (h : Travels K E F c s) :
    ¬ Acc (fun c' c => Next (nested K) c c') (s, [some (.cooked E .top)]) := by
  refine CallStack.not_acc_of_again (P := fun x => ∃ A B, Sides K A B ∧ Sides K B A ∧
    Travels K A B c x.1 ∧ ∃ rest, x.2 = some (.cooked A .top) :: rest) ?_
    ⟨E, F, hsides, hsides', h, [], rfl⟩
  rintro ⟨s, l⟩ ⟨A, B, hA, hB, htravels, rest, hl⟩
  obtain rfl : l = some (.cooked A .top) :: rest := hl
  obtain ⟨s', htravels', hsteps⟩ := htravels.round hA rest
  exact ⟨_, hsteps, B, A, hB, hA, htravels', _, rfl⟩

/-- `tolower` of the characters in its table. -/
def LowersAscii (K : TtyTable T) : Prop := ∀ c : BitVec 8, c.toNat < 128 →
  K.lower c = if 65 ≤ c.toNat ∧ c.toNat ≤ 90 then c + 32 else c

omit [DecidableEq T] in
/-- There are more ordinary characters than special ones. -/
theorem exists_plain (hlower : LowersAscii K) (m m' : Termios) :
    ∃ c, Plain K m c ∧ Plain K m' c := by
  let ordinary : Finset (BitVec 8) := (Finset.range 36).image fun i => BitVec.ofNat 8 (91 + i)
  let special : Finset (BitVec 8) := Finset.univ.image m.cc ∪ Finset.univ.image m'.cc
  have hspecial : special.card ≤ 17 + 17 := by
    refine (Finset.card_union_le _ _).trans (Nat.add_le_add ?_ ?_)
    · exact Finset.card_image_le.trans_eq (Finset.card_fin 17)
    · exact Finset.card_image_le.trans_eq (Finset.card_fin 17)
  have hordinary : ordinary.card = 36 := by decide +kernel
  obtain ⟨c, hc, hnot⟩ := Finset.exists_mem_notMem_of_card_lt_card
    (s := special) (t := ordinary) (by omega)
  have hrange : 91 ≤ c.toNat ∧ c.toNat < 127 := by
    obtain ⟨i, hi, rfl⟩ := Finset.mem_image.mp hc
    rw [Finset.mem_range] at hi
    rw [BitVec.toNat_ofNat]
    omega
  have hlow : K.lower c = c := by
    rw [hlower c (by omega), if_neg (by omega)]
  refine ⟨c, ⟨hlow, by omega, by omega, fun i heq => hnot ?_⟩,
    ⟨hlow, by omega, by omega, fun i heq => hnot ?_⟩⟩
  · exact Finset.mem_union_left _ (Finset.mem_image.mpr ⟨i, Finset.mem_univ i, heq⟩)
  · exact Finset.mem_union_right _ (Finset.mem_image.mpr ⟨i, Finset.mem_univ i, heq⟩)

omit [DecidableEq T] in
theorem sides_of_pair {X Y : T} (hpair : K.kind X = .master Y) : Sides K X Y ∧ Sides K Y X := by
  have hslave := (K.pair X Y).mp hpair
  have hne : X ≠ Y := by
    rintro rfl
    rw [hpair] at hslave
    cases hslave
  have hleft : (K.kind X).write X = [.pty X Y] := by rw [hpair]; rfl
  have hright : (K.kind Y).write Y = [.pty Y X] := by rw [hslave]; rfl
  exact ⟨⟨hne, hleft, hright⟩, ⟨hne.symm, hright, hleft⟩⟩

/-- Two sides with these settings, and the character `c` before the first. -/
def echoing (X : T) (m m' : Termios) (c : BitVec 8) : Ttys T where
  tty t := ⟨if t = X then m else m', false,
    if t = X then (TtyQueue.ofRing 0 noChars).putch c else .ofRing 0 noChars,
    .ofRing 0 noChars, .ofRing 0 noChars, ⟨.normal, 0⟩, []⟩
  crFlag := false

/-- Both sides echo: there is a character that goes round. -/
theorem not_ptyEnds {X Y : T} (hpair : K.kind X = .master Y) (hlower : LowersAscii K)
    (hecho : m.L ECHO) (hecho' : m'.L ECHO) (d : ℕ) : ¬ PtyEnds K X Y m m' d := by
  intro hends
  obtain ⟨hX, hY⟩ := sides_of_pair hpair
  obtain ⟨c, hplain, hplain'⟩ := exists_plain hlower m m'
  have hnone : (TtyQueue.ofRing 0 noChars).ring.contents = [] :=
    RingBuffer.empty_iff_contents.mp rfl
  have htravels : Travels K X Y c (echoing X m m' c) := by
    refine ⟨?_, ?_, ?_⟩
    · simp only [echoing, if_true]
      exact (contents_none hnone c).2
    · simp only [echoing, if_neg hX.ne.symm]
      exact hnone
    · intro t ht
      refine ⟨hnone, (contents_none hnone c).1, rfl, ?_⟩
      obtain rfl | rfl := ht
      · simp only [echoing, if_true]
        exact ⟨hecho, hplain⟩
      · simp only [echoing, if_neg hX.ne.symm]
        exact ⟨hecho', hplain'⟩
  refine htravels.not_acc hX hY (hends _ ?_ ?_ _ .cookedMaster).1
  · simp only [echoing, if_true]
  · simp only [echoing, if_neg hX.ne.symm]

/-- A side does not echo: what the other has yet to take bounds the nesting. -/
theorem ends_of_quiet (hsides : Sides K E F) (h : ¬ (s.tty F).termios.L ECHO) {f : Frame T}
    (hf : PtyCall E F f) : Acc (fun c' c => Next (nested K) c c') (s, [some f]) ∧
      ∀ c, Relation.ReflTransGen (Next (nested K)) (s, [some f]) c → c.2.length ≤ 8188 := by
  have hsupply : supply E F s ≤ 2046 := by
    have hreads : s.reads E < 1024 := count_lt
    have hwrites : s.writes F < 1024 := count_lt
    rw [supply]
    omega
  have hreturns : Returns (nested K) 8188 (fun _ => True) s [some f] := by
    obtain ⟨hE, hFE, hF, hEF⟩ := hsides.specs 2046
    cases hf with
    | master => exact (hEF s h hsupply).mono le_rfl fun _ _ => trivial
    | slave => exact (hFE s h hsupply).mono (by decide) fun _ _ => trivial
    | cookedMaster => exact (hE s h hsupply).mono (by decide) fun _ _ => trivial
    | cookedSlave => exact (hF s h hsupply).mono (by decide) fun _ _ => trivial
  exact ⟨hreturns.acc, fun c hc => (hreturns.reach (c := (s, [some f])) hc).length_le⟩

/-- The recursion of the two sides of a pseudo-terminal ends, with a bound on its depth, for every
content of the queues and every stopped state, if and only if not both sides echo. -/
theorem pty_copy_ends {X Y : T} (hpair : K.kind X = .master Y) (hlower : LowersAscii K)
    (m m' : Termios) : (∃ d, PtyEnds K X Y m m' d) ↔ ¬ (m.L ECHO ∧ m'.L ECHO) := by
  constructor
  · rintro ⟨d, hends⟩ ⟨hecho, hecho'⟩
    exact not_ptyEnds hpair hlower hecho hecho' d hends
  · intro hquiet
    obtain ⟨hX, hY⟩ := sides_of_pair hpair
    refine ⟨8188, fun s hm hm' f hf => ?_⟩
    by_cases hecho' : m'.L ECHO
    · have hecho : ¬ (s.tty X).termios.L ECHO := fun hecho => hquiet ⟨hm ▸ hecho, hecho'⟩
      -- the sides in the other order
      refine ends_of_quiet hY hecho ?_
      cases hf with
      | master => exact .slave
      | slave => exact .master
      | cookedMaster => exact .cookedSlave
      | cookedSlave => exact .cookedMaster
    · exact ends_of_quiet hX (hm' ▸ hecho') hf

end

/-- A pseudo-terminal, with `tolower` for the characters in its table. -/
def ptyPair : TtyTable Bool where
  kind t := if t then .master false else .slave true
  pair := by decide
  lower c := if 65 ≤ c.toNat ∧ c.toNat ≤ 90 then c + 32 else c
  upper := id

theorem ptyPair_lowers : LowersAscii ptyPair := fun _ _ => rfl

/-- A terminal that echoes, behind a program that does not. -/
theorem pty_copy_ends_slave : ∃ d, PtyEnds ptyPair true false { DEF_TERMIOS with lflag := 0 }
    DEF_TERMIOS d :=
  (pty_copy_ends rfl ptyPair_lowers _ _).mpr fun h => absurd h.1 (by decide)

/-- Both sides with the settings of a terminal. -/
theorem pty_copy_goes_round : ¬ ∀ m m', ∃ d, PtyEnds ptyPair true false m m' d := by
  intro h
  obtain ⟨d, hends⟩ := h DEF_TERMIOS DEF_TERMIOS
  exact not_ptyEnds rfl ptyPair_lowers (by decide) (by decide) d hends

end Tty
