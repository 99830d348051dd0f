/-
Room in the queues of the terminals.

* `secondaryRoom`, `writeRoom` — how many calls have found room in a queue and not yet used it;
* `Roomy` — what is put without a check finds room beside the room that others have found, and
  nothing is taken from an empty queue;
* `no_overwrite` — then no full queue is put to.
-/
import Linux012.Tty
import Mathlib.Algebra.BigOperators.Group.List.Basic
import Mathlib.Algebra.Ring.Nat
import Mathlib.Data.List.Perm.Basic

namespace Tty

variable {T : Type} [DecidableEq T]

/-- The points of `copy_to_cooked` behind the check of the secondary queue. -/
def Cooked.Reserves : Cooked → Prop
  | .get | .got _ | .echo _ _ | .store _ => True
  | .top | .room | .kill | .rub _ _ | .dec _ => False

instance : DecidablePred Cooked.Reserves
  | .get | .got _ | .echo _ _ | .store _ => isTrue trivial
  | .top | .room | .kill | .rub _ _ | .dec _ => isFalse id

/-- The room in the secondary queue of `t` that a call relies on. -/
def Frame.usesSecondary (t : T) : Frame T → ℕ
  | .cooked t' pc => if t' = t ∧ pc.Reserves then 1 else 0
  | _ => 0

/-- The room in the write queue of `t` that a call relies on. -/
def Frame.usesWrite (t : T) : Frame T → ℕ
  | .write t' _ .fetch => if t' = t then 1 else 0
  | _ => 0

def secondaryRoom (t : T) (l : List (Frame T)) : ℕ := (l.map (Frame.usesSecondary t)).sum

def writeRoom (t : T) (l : List (Frame T)) : ℕ := (l.map (Frame.usesWrite t)).sum

/-- What the next step of a call finds, beside the room that the other calls rely on. -/
def Frame.Roomy (s : Ttys T) (others : List (Frame T)) : Frame T → Prop
  | .cooked t .room => ¬ (s.tty t).secondary.ring.Full →
    secondaryRoom t others < (s.tty t).secondary.ring.left
  | .cooked t .get => ¬ (s.tty t).readQ.ring.Empty
  -- the echo, and what takes an erased character off the screen
  | .cooked t (.rub (_ :: _) _) => writeRoom t others < (s.tty t).writeQ.ring.left
  | .cooked t (.echo (_ :: _) _) => writeRoom t others < (s.tty t).writeQ.ring.left
  | .cooked t (.dec _) => ¬ (s.tty t).secondary.ring.Empty
  | .con t _ (.inc _) => ¬ (s.tty t).writeQ.ring.Empty
  -- the answer of a console
  | .con t _ (.interp c) => (s.tty t).vc.Responds c → RESPONSE.length ≤ (s.tty t).readQ.ring.left
  | .write t _ .inner => ¬ (s.tty t).writeQ.ring.Full →
    writeRoom t others < (s.tty t).writeQ.ring.left
  | .read t _ _ _ .take => ¬ (s.tty t).secondary.ring.Empty
  | _ => True

/-- What a step finds. -/
def Terminals.Roomy (s : Terminals T) : TtyEvent T → Prop
  | .run _ _ => ∀ f rest, s.stack = f :: rest → f.Roomy s.ttys (rest ++ s.parked)
  | .flow t .TCIOFF => (s.ttys.tty t).termios.cc VSTOP ≠ 0 →
    writeRoom t s.parked < (s.ttys.tty t).writeQ.ring.left
  | .flow t .TCION => (s.ttys.tty t).termios.cc VSTART ≠ 0 →
    writeRoom t s.parked < (s.ttys.tty t).writeQ.ring.left
  | _ => True

variable {K : TtyTable T} {s s' : Ttys T} {t : T} {l l' others : List (Frame T)}
  {signal expired : Bool}

@[simp] theorem secondaryRoom_nil (t : T) : secondaryRoom t ([] : List (Frame T)) = 0 := rfl

@[simp] theorem writeRoom_nil (t : T) : writeRoom t ([] : List (Frame T)) = 0 := rfl

@[simp] theorem secondaryRoom_cons (t : T) (f : Frame T) (l : List (Frame T)) :
    secondaryRoom t (f :: l) = f.usesSecondary t + secondaryRoom t l := by
  rw [secondaryRoom, List.map_cons, List.sum_cons]
  rfl

@[simp] theorem writeRoom_cons (t : T) (f : Frame T) (l : List (Frame T)) :
    writeRoom t (f :: l) = f.usesWrite t + writeRoom t l := by
  rw [writeRoom, List.map_cons, List.sum_cons]
  rfl

@[simp] theorem secondaryRoom_append (t : T) (l l' : List (Frame T)) :
    secondaryRoom t (l ++ l') = secondaryRoom t l + secondaryRoom t l' := by
  rw [secondaryRoom, List.map_append, List.sum_append]
  rfl

@[simp] theorem writeRoom_append (t : T) (l l' : List (Frame T)) :
    writeRoom t (l ++ l') = writeRoom t l + writeRoom t l' := by
  rw [writeRoom, List.map_append, List.sum_append]
  rfl

@[simp] theorem secondaryRoom_write (t t' : T) (k : TtyKind T) :
    secondaryRoom t (k.write t') = 0 := by
  cases k with
  | console => rfl
  | serial => rfl
  | master other => rfl
  | slave other => rfl

@[simp] theorem writeRoom_write (t t' : T) (k : TtyKind T) : writeRoom t (k.write t') = 0 := by
  cases k with
  | console => rfl
  | serial => rfl
  | master other => rfl
  | slave other => rfl

@[simp] theorem secondaryRoom_pull (t t' : T) (k : TtyKind T) :
    secondaryRoom t (Read.pull t' k) = 0 := by
  cases k with
  | console => rfl
  | serial => rfl
  | master other => rfl
  | slave other => rfl

@[simp] theorem writeRoom_pull (t t' : T) (k : TtyKind T) : writeRoom t (Read.pull t' k) = 0 := by
  cases k with
  | console => rfl
  | serial => rfl
  | master other => rfl
  | slave other => rfl

/-- The queues of a terminal, with the room in them that calls rely on. -/
structure TtyStruct.Keeps (y : TtyStruct) (secondaryRoom writeRoom : ℕ) : Prop where
  readQ : y.readQ.Sound
  writeQ : y.writeQ.Sound
  secondary : y.secondary.Sound
  secondaryRoom_le : secondaryRoom ≤ y.secondary.ring.left
  writeRoom_le : writeRoom ≤ y.writeQ.ring.left

def AllKeep (s : Ttys T) (l : List (Frame T)) : Prop :=
  ∀ t, (s.tty t).Keeps (secondaryRoom t l) (writeRoom t l)

/-- Calls that rely on less. -/
theorem AllKeep.mono (h : AllKeep s l) (hsecondary : ∀ t, secondaryRoom t l' ≤ secondaryRoom t l)
    (hwrite : ∀ t, writeRoom t l' ≤ writeRoom t l) : AllKeep s l' := fun t =>
  ⟨(h t).readQ, (h t).writeQ, (h t).secondary, (hsecondary t).trans (h t).secondaryRoom_le,
    (hwrite t).trans (h t).writeRoom_le⟩

/-- A step at one terminal, and the calls that rely on room at it. -/
theorem AllKeep.modify (h : AllKeep s l) {g : TtyStruct → TtyStruct}
    (hself : (g (s.tty t)).Keeps (secondaryRoom t l') (writeRoom t l'))
    (hsecondary : ∀ t' ≠ t, secondaryRoom t' l' ≤ secondaryRoom t' l)
    (hwrite : ∀ t' ≠ t, writeRoom t' l' ≤ writeRoom t' l) : AllKeep (s.modify t g) l' := by
  intro t'
  by_cases ht : t' = t
  · subst ht
    rw [Ttys.modify_tty_self]
    exact hself
  · rw [Ttys.modify_tty_of_ne ht]
    exact ⟨(h t').readQ, (h t').writeQ, (h t').secondary,
      (hsecondary t' ht).trans (h t').secondaryRoom_le, (hwrite t' ht).trans (h t').writeRoom_le⟩

/-- Calls that rely on room that is there. -/
theorem AllKeep.rely (h : AllKeep s l)
    (hsecondary : ∀ t, secondaryRoom t l' ≤ (s.tty t).secondary.ring.left)
    (hwrite : ∀ t, writeRoom t l' ≤ (s.tty t).writeQ.ring.left) : AllKeep s l' := fun t =>
  ⟨(h t).readQ, (h t).writeQ, (h t).secondary, hsecondary t, hwrite t⟩

/-- A step that uses no room. -/
theorem AllKeep.map (h : AllKeep s l) {g : TtyStruct → TtyStruct}
    (hself : ∀ {a b}, (s.tty t).Keeps a b → (g (s.tty t)).Keeps a b) : AllKeep (s.modify t g) l :=
  h.modify (hself (h t)) (fun _ _ => le_refl _) fun _ _ => le_refl _

theorem AllKeep.mapRead (h : AllKeep s l) {f : TtyQueue → TtyQueue}
    (hself : (f (s.tty t).readQ).Sound) : AllKeep (s.modifyRead t f) l :=
  AllKeep.map (g := fun y => { y with readQ := f y.readQ }) h fun hkeeps =>
    ⟨hself, hkeeps.writeQ, hkeeps.secondary, hkeeps.secondaryRoom_le, hkeeps.writeRoom_le⟩

theorem AllKeep.mapWrite (h : AllKeep s l) {f : TtyQueue → TtyQueue}
    (hself : ∀ {a b}, (s.tty t).Keeps a b →
      ({ s.tty t with writeQ := f (s.tty t).writeQ } : TtyStruct).Keeps a b) :
    AllKeep (s.modifyWrite t f) l := h.map hself

theorem AllKeep.mapSecondary (h : AllKeep s l) {f : TtyQueue → TtyQueue}
    (hself : ∀ {a b}, (s.tty t).Keeps a b →
      ({ s.tty t with secondary := f (s.tty t).secondary } : TtyStruct).Keeps a b) :
    AllKeep (s.modifySecondary t f) l := h.map hself

namespace TtyStruct

variable {y : TtyStruct} {a b : ℕ}

theorem Keeps.putWrite (h : y.Keeps a b) (c : BitVec 8) (hroom : b < y.writeQ.ring.left) :
    ({ y with writeQ := y.writeQ.putch c } : TtyStruct).Keeps a b := by
  have hfull := TtyQueue.not_full_of_lt hroom
  have hleft := TtyQueue.left_putch c hfull
  exact ⟨h.readQ, h.writeQ.putch c hfull, h.secondary, h.secondaryRoom_le, by
    show b ≤ (y.writeQ.putch c).ring.left
    omega⟩

/-- The room that was relied on is used. -/
theorem Keeps.fetch (h : y.Keeps a (b + 1)) (c : BitVec 8) :
    ({ y with writeQ := y.writeQ.putch c } : TtyStruct).Keeps a b :=
  Keeps.putWrite ⟨h.readQ, h.writeQ, h.secondary, h.secondaryRoom_le,
    (Nat.le_succ b).trans h.writeRoom_le⟩ c (Nat.lt_of_succ_le h.writeRoom_le)

theorem Keeps.store (h : y.Keeps (a + 1) b) (c : BitVec 8) :
    ({ y with secondary := y.secondary.putch c } : TtyStruct).Keeps a b := by
  have hroom : a < y.secondary.ring.left := Nat.lt_of_succ_le h.secondaryRoom_le
  have hfull := TtyQueue.not_full_of_lt hroom
  have hleft := TtyQueue.left_putch c hfull
  exact ⟨h.readQ, h.writeQ, h.secondary.putch c hfull, by
    show a ≤ (y.secondary.putch c).ring.left
    omega, h.writeRoom_le⟩

theorem Keeps.takeWrite (h : y.Keeps a b) (hempty : ¬ y.writeQ.ring.Empty) :
    ({ y with writeQ := y.writeQ.incTail } : TtyStruct).Keeps a b :=
  ⟨h.readQ, h.writeQ.incTail hempty, h.secondary, h.secondaryRoom_le, by
    show b ≤ y.writeQ.incTail.ring.left
    rw [TtyQueue.left_incTail hempty]
    exact h.writeRoom_le.trans (Nat.le_succ _)⟩

theorem Keeps.erase (h : y.Keeps a b) (hempty : ¬ y.secondary.ring.Empty) :
    ({ y with secondary := y.secondary.decHead } : TtyStruct).Keeps a b :=
  ⟨h.readQ, h.writeQ, h.secondary.decHead hempty, by
    show a ≤ y.secondary.decHead.ring.left
    rw [TtyQueue.left_decHead hempty]
    exact h.secondaryRoom_le.trans (Nat.le_succ _), h.writeRoom_le⟩

theorem Keeps.take (h : y.Keeps a b) (hempty : ¬ y.secondary.ring.Empty) (m : Termios) :
    ({ y with secondary := Read.takeChar m y.secondary } : TtyStruct).Keeps a b :=
  ⟨h.readQ, h.writeQ, (h.secondary.incTail hempty).setData _, by
    show a ≤ y.secondary.incTail.ring.left
    rw [TtyQueue.left_incTail hempty]
    exact h.secondaryRoom_le.trans (Nat.le_succ _), h.writeRoom_le⟩

theorem Keeps.flushWrite (h : y.Keeps a b) :
    ({ y with writeQ := y.writeQ.flush } : TtyStruct).Keeps a b :=
  ⟨h.readQ, h.writeQ.flush, h.secondary, h.secondaryRoom_le, by
    show b ≤ y.writeQ.flush.ring.left
    rw [TtyQueue.left_flush]
    have hle := h.writeRoom_le
    rw [RingBuffer.left_eq] at hle
    omega⟩

theorem Keeps.setData (h : y.Keeps a b) (data : BitVec 32) :
    ({ y with secondary := { y.secondary with data := data } } : TtyStruct).Keeps a b :=
  ⟨h.readQ, h.writeQ, h.secondary.setData data, h.secondaryRoom_le, h.writeRoom_le⟩

theorem Keeps.setStopped (h : y.Keeps a b) (stopped : Bool) :
    ({ y with stopped := stopped } : TtyStruct).Keeps a b :=
  ⟨h.readQ, h.writeQ, h.secondary, h.secondaryRoom_le, h.writeRoom_le⟩

theorem Keeps.setTermios (h : y.Keeps a b) (m : Termios) :
    ({ y with termios := m } : TtyStruct).Keeps a b :=
  ⟨h.readQ, h.writeQ, h.secondary, h.secondaryRoom_le, h.writeRoom_le⟩

theorem Keeps.interpret (h : y.Keeps a b) {c : BitVec 8}
    (hroom : y.vc.Responds c → RESPONSE.length ≤ y.readQ.ring.left) :
    (Con.interpret y c).Keeps a b := by
  refine ⟨?_, h.writeQ, h.secondary, h.secondaryRoom_le, h.writeRoom_le⟩
  rw [Con.interpret]
  dsimp only
  split
  case isTrue hresponds => exact h.readQ.putAll (hroom hresponds)
  case isFalse => exact h.readQ

end TtyStruct

/-- A character is put where there is room beside that of the calls. -/
theorem AllKeep.putWrite (h : AllKeep s l) (c : BitVec 8)
    (hroom : writeRoom t l < (s.tty t).writeQ.ring.left) :
    AllKeep (s.modifyWrite t (·.putch c)) l :=
  AllKeep.modify (g := fun y => { y with writeQ := y.writeQ.putch c }) h
    ((h t).putWrite c hroom) (fun _ _ => le_refl _) fun _ _ => le_refl _

/-- The calls at one terminal rely on no room at another. -/
theorem usesSecondary_of_ne {t' : T} (h : t' ≠ t) (pc : Cooked) :
    (Frame.cooked t pc).usesSecondary t' = 0 := if_neg fun heq => h heq.1.symm

namespace Cooked

theorem dispatch_keeps {c : BitVec 8} (h : AllKeep s (.cooked t (.got c) :: others))
    (c' : BitVec 8) : AllKeep (dispatch K s t c').1 ((dispatch K s t c').2 ++ others) := by
  -- a call that goes on at the terminal relies on no more
  have hgot : ∀ t' pc, (Frame.cooked t pc).usesSecondary t' ≤
      (Frame.cooked t (.got c)).usesSecondary t' := by
    intro t' pc
    by_cases ht : t = t'
    · have hone : (Frame.cooked t (.got c)).usesSecondary t' = 1 := if_pos ⟨ht, trivial⟩
      rw [hone, Frame.usesSecondary]
      split
      case isTrue => exact le_refl 1
      case isFalse => exact Nat.zero_le 1
    · rw [usesSecondary_of_ne (Ne.symm ht)]
      exact Nat.zero_le _
  have hle : ∀ (pc : Cooked) (t' : T), secondaryRoom t' ([.cooked t pc] ++ others) ≤
      secondaryRoom t' (.cooked t (.got c) :: others) := fun pc t' =>
    Nat.add_le_add_right (hgot t' pc) _
  have hsame : ∀ pc : Cooked, AllKeep s ([.cooked t pc] ++ others) := fun pc =>
    h.mono (hle pc) fun _ => le_refl _
  have hstopped : ∀ b : Bool, AllKeep (s.modify t fun y => { y with stopped := b })
      ((K.kind t).write t ++ [.cooked t .top] ++ others) := by
    intro b
    refine AllKeep.map ?_ fun hself => hself.setStopped b
    refine h.mono (fun t' => ?_) fun t' => ?_
    · rw [List.append_assoc, secondaryRoom_append, secondaryRoom_write, Nat.zero_add]
      exact hle .top t'
    · rw [List.append_assoc, writeRoom_append, writeRoom_write, Nat.zero_add]
      exact le_refl _
  rw [dispatch]
  dsimp only
  split
  case isTrue => exact hsame .kill
  split
  case isTrue =>
    split
    case isTrue => exact hsame .top
    case isFalse => exact hsame _
  split
  case isTrue => exact hstopped true
  split
  case isTrue => exact hstopped false
  split
  case isTrue => exact hsame .top
  split
  case isTrue =>
    show AllKeep (s.modifySecondary t fun q => { q with data := q.data + 1 }) (_ ++ others)
    exact (hsame _).mapSecondary fun hself => hself.setData _
  case isFalse => exact hsame _

theorem run_keeps {pc : Cooked} (h : AllKeep s (.cooked t pc :: others))
    (hroomy : (Frame.cooked t pc).Roomy s others) :
    AllKeep (pc.run K s t).1 ((pc.run K s t).2 ++ others) := by
  -- a call that relies on no room may go on as any such call, or end
  have hdrop : AllKeep s others := h.mono (fun t' => by simp) fun t' => by simp
  have hfree : ∀ pc' : Cooked, ¬ pc'.Reserves → AllKeep s ([.cooked t pc'] ++ others) :=
    fun pc' hpc => hdrop.mono (fun t' => by simp [Frame.usesSecondary, hpc])
      fun t' => by simp [Frame.usesWrite]
  have hwrite : ∀ pc' : Cooked, AllKeep s ([.cooked t pc'] ++ others) →
      AllKeep s ((K.kind t).write t ++ [.cooked t pc'] ++ others) :=
    fun pc' hpc => hpc.mono (fun t' => by simp) fun t' => by simp
  cases pc with
  | top =>
    rw [run]
    split
    case isTrue => exact hdrop
    case isFalse => exact hfree .room id
  | room =>
    rw [run]
    split
    case isTrue => exact hdrop
    case isFalse hfull =>
      show AllKeep s ([.cooked t .get] ++ others)
      refine hdrop.rely (fun t' => ?_) fun t' => by
        simpa [Frame.usesWrite] using (hdrop t').writeRoom_le
      by_cases ht : t = t'
      · subst ht
        have hone : (Frame.cooked t .get).usesSecondary t = 1 := if_pos ⟨rfl, trivial⟩
        show (Frame.cooked t .get).usesSecondary t + secondaryRoom t others ≤ _
        rw [hone, Nat.add_comm]
        exact hroomy hfull
      · show (Frame.cooked t .get).usesSecondary t' + secondaryRoom t' others ≤ _
        rw [usesSecondary_of_ne (Ne.symm ht), Nat.zero_add]
        exact (hdrop t').secondaryRoom_le
  | get =>
    show AllKeep (s.modifyRead t .incTail) (_ ++ others)
    exact AllKeep.mapRead h ((h t).readQ.incTail hroomy)
  | got c =>
    rw [run]
    split
    · exact hfree .top id
    · exact dispatch_keeps h _
  | kill =>
    rw [run]
    split
    case isTrue => exact hfree .top id
    case isFalse =>
      refine hfree _ ?_
      rw [erase]
      split
      case isTrue => exact id
      case isFalse => exact id
  | rub cs again =>
    cases cs with
    | nil => exact hwrite _ (hfree _ id)
    | cons c cs =>
      show AllKeep (s.modifyWrite t (·.putch c)) ([.cooked t (.rub cs again)] ++ others)
      have hroom : writeRoom t others < (s.tty t).writeQ.ring.left := hroomy
      exact (hfree (.rub cs again) id).putWrite c (by simpa [Frame.usesWrite] using hroom)
  | dec again =>
    show AllKeep (s.modifySecondary t .decHead) (_ ++ others)
    refine AllKeep.mapSecondary (hfree _ ?_) fun hself => hself.erase hroomy
    cases again with
    | true => exact id
    | false => exact id
  | echo cs c =>
    cases cs with
    | nil => exact hwrite (.store c) h
    | cons x cs =>
      show AllKeep (s.modifyWrite t (·.putch x)) ([.cooked t (.echo cs c)] ++ others)
      have hroom : writeRoom t others < (s.tty t).writeQ.ring.left := hroomy
      exact AllKeep.putWrite h x (by simpa [Frame.usesWrite] using hroom)
  | store c =>
    -- the room that was found is used
    show AllKeep (s.modifySecondary t (·.putch c)) ([.cooked t .top] ++ others)
    have hone : (Frame.cooked t (.store c)).usesSecondary t = 1 := if_pos ⟨rfl, trivial⟩
    have hnone : (Frame.cooked t .top).usesSecondary t = 0 := if_neg fun hres => hres.2
    have hself := h t
    rw [secondaryRoom_cons, hone, Nat.add_comm] at hself
    refine AllKeep.modify (g := fun y => { y with secondary := y.secondary.putch c }) h ?_
      (fun t' ht' => ?_) fun _ _ => le_refl _
    · rw [List.singleton_append, secondaryRoom_cons, hnone, Nat.zero_add]
      exact hself.store c
    · rw [List.singleton_append, secondaryRoom_cons, secondaryRoom_cons, usesSecondary_of_ne ht',
        usesSecondary_of_ne ht']

end Cooked

theorem Con.run_keeps {nr : ℕ} {pc : Con} (h : AllKeep s (.con t nr pc :: others))
    (hroomy : (Frame.con t nr pc).Roomy s others) :
    AllKeep (pc.run s t nr).1 ((pc.run s t nr).2 ++ others) := by
  cases pc with
  | enter => exact h
  | test =>
    rw [Con.run]
    split
    case isTrue => exact h.mono (fun t' => by simp) fun t' => by simp
    case isFalse => exact h
  | take => exact h
  | inc c =>
    show AllKeep (s.modifyWrite t .incTail) ([.con t nr (.interp c)] ++ others)
    exact AllKeep.mapWrite h fun hself => hself.takeWrite hroomy
  | interp c =>
    have hframes : AllKeep s (((Con.interp c).run s t nr).2 ++ others) := by
      refine h.mono (fun t' => ?_) fun t' => ?_
      · rw [Con.run]
        dsimp only
        split
        case isTrue => simp [Frame.usesSecondary, Cooked.Reserves]
        case isFalse => simp [Frame.usesSecondary]
      · rw [Con.run]
        dsimp only
        split
        case isTrue => simp [Frame.usesWrite]
        case isFalse => simp [Frame.usesWrite]
    show AllKeep (s.modify t (Con.interpret · c)) _
    exact hframes.map fun hself => hself.interpret hroomy

theorem ptyCopy_keeps {src dst : T} (h : AllKeep s (.pty src dst :: others)) :
    AllKeep (ptyCopy s src dst signal).1 ((ptyCopy s src dst signal).2 ++ others) := by
  have hcooked : AllKeep s ([.cooked dst .top] ++ others) := by
    refine h.mono (fun t' => ?_) fun t' => ?_
    · simp [Frame.usesSecondary, Cooked.Reserves]
    · simp [Frame.usesWrite]
  rw [ptyCopy]
  split
  case isTrue => exact hcooked
  split
  case isTrue =>
    split
    case isTrue => exact hcooked
    case isFalse =>
      refine h.mono (fun t' => ?_) fun t' => ?_
      · simp [Frame.usesSecondary, Cooked.Reserves]
      · simp [Frame.usesWrite]
  case isFalse hsrc hdst =>
    obtain ⟨-, hempty⟩ := not_or.mp hsrc
    dsimp only
    have hframes : AllKeep s ((if signal = true then [.cooked dst .top] else [.pty src dst]) ++
        others) := by
      split
      case isTrue => exact hcooked
      case isFalse => exact h
    have htaken : AllKeep (s.modifyWrite src .incTail)
        ((if signal = true then [.cooked dst .top] else [.pty src dst]) ++ others) :=
      hframes.mapWrite fun hself => hself.takeWrite hempty
    have hread : ((s.modifyWrite src .incTail).tty dst).readQ = (s.tty dst).readQ :=
      Ttys.modify_keeps TtyStruct.readQ s src dst fun _ => rfl
    refine htaken.mapRead ?_
    rw [hread]
    exact (h dst).readQ.putch _ hdst

theorem Write.run_keeps {buf : List (BitVec 8)} {pc : Write}
    (h : AllKeep s (.write t buf pc :: others)) (hroomy : (Frame.write t buf pc).Roomy s others) :
    AllKeep (pc.run K s t buf signal).1 ((pc.run K s t buf signal).2 ++ others) := by
  have hdrop : AllKeep s others := h.mono (fun t' => by simp) fun t' => by simp
  have hfree : ∀ buf', ∀ pc' : Write, pc' ≠ .fetch →
      AllKeep s ([.write t buf' pc'] ++ others) := by
    refine fun buf' pc' hpc => hdrop.mono (fun t' => ?_) fun t' => ?_
    · simp [Frame.usesSecondary]
    · cases pc' with
      | fetch => exact absurd rfl hpc
      | _ => simp [Frame.usesWrite]
  cases pc with
  | outer =>
    rw [Write.run]
    split
    case isTrue => exact hdrop
    split
    case isTrue => exact hfree _ _ (by simp)
    case isFalse => exact hfree _ _ (by simp)
  | asleep =>
    rw [Write.run]
    split
    case isTrue => exact hfree _ _ (by simp)
    case isFalse => exact hfree _ _ (by simp)
  | signal =>
    rw [Write.run]
    split
    case isTrue => exact hdrop
    case isFalse => exact hfree _ _ (by simp)
  | inner =>
    rw [Write.run]
    split
    case isTrue =>
      refine (hfree buf .after (by simp)).mono (fun t' => ?_) fun t' => ?_
      · simp
      · simp
    case isFalse hfull =>
      -- the room that is found is relied on from now on
      show AllKeep s ([.write t buf .fetch] ++ others)
      have hroom := hroomy (not_or.mp hfull).2
      refine hdrop.rely (fun t' => ?_) fun t' => ?_
      · simpa [Frame.usesSecondary] using (hdrop t').secondaryRoom_le
      · show (Frame.write t buf .fetch).usesWrite t' + writeRoom t' others ≤ _
        rw [Frame.usesWrite]
        split
        case isTrue ht =>
          subst ht
          rw [Nat.add_comm]
          exact hroom
        case isFalse =>
          rw [Nat.zero_add]
          exact (hdrop t').writeRoom_le
  | fetch =>
    cases buf with
    | nil => exact hdrop
    | cons c cs =>
      rcases hpost : Write.post K (s.tty t).termios s.crFlag c with ⟨c', again, crFlag⟩
      simp only [Write.run, hpost]
      have hself := h t
      rw [writeRoom_cons, Frame.usesWrite, if_pos rfl, Nat.add_comm] at hself
      have hput : AllKeep (s.modifyWrite t (·.putch c'))
          ([.write t (if again = true then c :: cs else cs) .inner] ++ others) := by
        refine AllKeep.modify (g := fun y => { y with writeQ := y.writeQ.putch c' }) h ?_
          (fun _ _ => le_refl _) fun t' ht' => ?_
        · simpa [Frame.usesSecondary, Frame.usesWrite] using hself.fetch c'
        · simp [Frame.usesWrite]
      exact hput
  | after =>
    rw [Write.run]
    split
    case isTrue => exact hdrop
    case isFalse => exact hfree _ _ (by simp)

theorem Read.run_keeps {nr minimum : ℕ} {buf : List (BitVec 8)} {pc : Read}
    (h : AllKeep s (.read t nr minimum buf pc :: others))
    (hroomy : (Frame.read t nr minimum buf pc).Roomy s others) :
    AllKeep (pc.run K s t nr minimum buf signal expired).1
      ((pc.run K s t nr minimum buf signal expired).2 ++ others) := by
  have hdrop : AllKeep s others := h.mono (fun t' => by simp) fun t' => by simp
  cases pc with
  | outer =>
    rw [Read.run]
    split
    case isTrue => exact hdrop
    case isFalse =>
      refine hdrop.mono (fun t' => ?_) fun t' => ?_
      · simp [Frame.usesSecondary]
      · simp [Frame.usesWrite]
  | test =>
    rw [Read.run]
    split
    case isTrue =>
      split
      case isTrue => exact hdrop
      case isFalse => exact h
    case isFalse => exact h
  | asleep => exact h
  | take =>
    show AllKeep (s.modifySecondary t (Read.takeChar (s.tty t).termios)) (_ ++ others)
    exact AllKeep.mapSecondary h fun hself => hself.take hroomy _
  | more c => exact h
  | done =>
    rw [Read.run]
    split
    case isTrue => exact hdrop
    case isFalse => exact h

theorem Frame.run_keeps {f : Frame T} (h : AllKeep s (f :: others)) (hroomy : f.Roomy s others) :
    AllKeep (f.run K s signal expired).1 ((f.run K s signal expired).2 ++ others) := by
  cases f with
  | cooked t pc => exact Cooked.run_keeps h hroomy
  | con t nr pc => exact Con.run_keeps h hroomy
  | pty src dst => exact ptyCopy_keeps h
  | write t buf pc => exact Write.run_keeps h hroomy
  | read t nr minimum buf pc => exact Read.run_keeps h hroomy

namespace Terminals

variable {s s' : Terminals T} {e : TtyEvent T}

/-- The queues of all terminals are sound, with room for all calls. -/
def Keeps (s : Terminals T) : Prop := AllKeep s.ttys (s.stack ++ s.parked)

/-- `put_queue` checks the room. -/
theorem sound_putQueue {q : TtyQueue} (hq : q.Sound) (cs : List (BitVec 8)) :
    (putQueue cs q).Sound := by
  rw [putQueue]
  split
  case isTrue hroom => exact hq.putAll hroom
  case isFalse => exact hq

theorem Keeps.step (h : s.Keeps) (hcan : s.Can K e) (hroomy : s.Roomy e) : (s.step K e).Keeps := by
  -- a call that begins where the stack is empty relies on no room
  have hidle : ∀ {s' : Ttys T} {l : List (Frame T)}, s.stack = [] → AllKeep s' s.parked →
      (∀ t, secondaryRoom t l = 0) → (∀ t, writeRoom t l = 0) → AllKeep s' (l ++ s.parked) :=
    fun _ hs hsec hw => hs.mono (fun t => by rw [secondaryRoom_append, hsec, Nat.zero_add])
      fun t => by rw [writeRoom_append, hw, Nat.zero_add]
  have hparked : s.stack = [] → AllKeep s.ttys s.parked := by
    intro hstack
    rw [Keeps, hstack] at h
    exact h
  cases e with
  | run signal expired =>
    cases hstack : s.stack with
    | nil => exact absurd hstack hcan
    | cons f rest =>
      rw [Keeps, hstack] at h
      have hrun : AllKeep (f.run K s.ttys signal expired).1
          ((f.run K s.ttys signal expired).2 ++ (rest ++ s.parked)) :=
        Frame.run_keeps h (hroomy f rest hstack)
      rw [← List.append_assoc] at hrun
      simp only [Terminals.step, hstack]
      exact hrun
  | write t buf => exact hidle (l := [_]) hcan (hparked hcan) (fun _ => rfl) fun _ => rfl
  | read t nr => exact hidle (l := [_]) hcan (hparked hcan) (fun _ => rfl) fun _ => rfl
  | setTermios t m =>
    show AllKeep (s.ttys.modify t fun y => { y with termios := m }) _
    exact AllKeep.map h fun hself => hself.setTermios m
  | flushRead t =>
    show AllKeep (s.ttys.modifyRead t .flush) _
    exact AllKeep.mapRead h (h t).readQ.flush
  | flushWrite t =>
    show AllKeep (s.ttys.modifyWrite t .flush) _
    exact AllKeep.mapWrite h fun hself => hself.flushWrite
  | flow t arg =>
    have hstack : s.stack = [] := hcan
    have hstopped : ∀ b : Bool, AllKeep (s.ttys.modify t fun y => { y with stopped := b })
        ((K.kind t).write t ++ s.parked) := fun b =>
      hidle hstack ((hparked hstack).map fun hself => hself.setStopped b) (fun _ => by simp)
        fun _ => by simp
    have hput : ∀ c : BitVec 8,
        (c ≠ 0 → writeRoom t s.parked < (s.ttys.tty t).writeQ.ring.left) →
        AllKeep (if c ≠ 0 then s.ttys.modifyWrite t (·.putch c) else s.ttys) s.parked := by
      intro c hroom
      split
      case isTrue hc => exact (hparked hstack).putWrite c (hroom hc)
      case isFalse => exact hparked hstack
    cases arg with
    | TCOOFF => exact hstopped true
    | TCOON => exact hstopped false
    | TCIOFF => exact hput _ hroomy
    | TCION => exact hput _ hroomy
  | key t cs =>
    have hkey : AllKeep (s.ttys.modifyRead t (putQueue cs)) (s.stack ++ s.parked) :=
      AllKeep.mapRead h (sound_putQueue (h t).readQ cs)
    exact hkey.mono (fun t' => by simp [Terminals.step, Frame.usesSecondary, Cooked.Reserves])
      fun t' => by simp [Terminals.step, Frame.usesWrite]
  | receive t c =>
    have hkey : AllKeep (s.ttys.modifyRead t (putQueue [c])) (s.stack ++ s.parked) :=
      AllKeep.mapRead h (sound_putQueue (h t).readQ [c])
    exact hkey.mono (fun t' => by simp [Terminals.step, Frame.usesSecondary, Cooked.Reserves])
      fun t' => by simp [Terminals.step, Frame.usesWrite]
  | sent t =>
    show AllKeep (s.ttys.modifyWrite t writeChar) _
    refine AllKeep.mapWrite h fun hself => ?_
    rw [writeChar]
    split
    case isTrue => exact hself
    case isFalse hempty => exact hself.takeWrite hempty
  | park => exact h
  | resume i =>
    obtain ⟨hstack, hi⟩ := hcan
    have hperm : ((s.step K (.resume i)).stack ++ (s.step K (.resume i)).parked).Perm s.parked := by
      simp only [Terminals.step, List.getElem?_eq_getElem hi]
      exact List.getElem_cons_eraseIdx_perm hi
    exact AllKeep.mono (hparked hstack) (fun t => (hperm.map _).sum_eq.le)
      fun t => (hperm.map _).sum_eq.le

end Terminals

end Tty
