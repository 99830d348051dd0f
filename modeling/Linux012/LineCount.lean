/-
The line counter of a terminal, `secondary->data`.

* `held` — the characters that are counted and not yet put in the secondary queue;
* `Steady` — a step changes no character that another has looked at, and no change of the
  flags makes a line end of a queued character, or the other way round;
* `line_count` — the counter is the number of line ends, and a canonical read sleeps just if
  there is none and the read queue is not full.
-/
import Linux012.Tty

namespace Tty

variable {T : Type} [DecidableEq T]

/-- The characters that `copy_to_cooked` has counted and not yet stored. -/
def Frame.holds (t : T) : Frame T → List (BitVec 8)
  | .cooked t' (.echo _ c) => if t' = t then [c] else []
  | .cooked t' (.store c) => if t' = t then [c] else []
  | _ => []

def held (t : T) (frames : List (Frame T)) : List (BitVec 8) := frames.flatMap (Frame.holds t)

/-- The flags `m` and `m'` find the same line ends among the characters of terminal `t`. -/
def SameLines (s : Ttys T) (t : T) (frames : List (Frame T)) (m' : Termios) : Prop :=
  ∀ c ∈ (s.tty t).secondary.ring.contents ++ held t frames,
    ((s.tty t).termios.Delim c ↔ m'.Delim c)

/-- What the next step of a call relies on, with the calls below it. -/
def Frame.Steady (s : Ttys T) (rest : List (Frame T)) : Frame T → Prop
  -- the room that there was is there still, and the last character is the one looked at
  | .cooked t (.store _) => ¬ (s.tty t).secondary.ring.Full
  | .cooked t (.dec _) => ¬ Cooked.AtStart (s.tty t)
  | .con t _ (.interp c) => (s.tty t).vc.Resets c → SameLines s t rest DEF_TERMIOS
  | .read t _ _ _ .take => ¬ (s.tty t).secondary.ring.Empty
  | _ => True

/-- What a step relies on. -/
def Terminals.Steady (s : Terminals T) : TtyEvent T → Prop
  | .run _ _ => ∀ f rest, s.stack = f :: rest → f.Steady s.ttys rest
  | .setTermios t m => SameLines s.ttys t s.stack m
  | _ => True

variable {K : TtyTable T} {s s' : Ttys T} {t : T} {l l' rest : List (Frame T)}
  {signal expired : Bool}

@[simp] theorem held_nil (t : T) : held t ([] : List (Frame T)) = [] := rfl

@[simp] theorem held_append (t : T) (l l' : List (Frame T)) :
    held t (l ++ l') = held t l ++ held t l' := List.flatMap_append

@[simp] theorem held_cons (t : T) (f : Frame T) (l : List (Frame T)) :
    held t (f :: l) = f.holds t ++ held t l := rfl

@[simp] theorem held_write (t t' : T) (k : TtyKind T) : held t (k.write t') = [] := by
  cases k with
  | console => rfl
  | serial => rfl
  | master other => rfl
  | slave other => rfl

@[simp] theorem held_pull (t t' : T) (k : TtyKind T) : held t (Read.pull t' k) = [] := by
  cases k with
  | console => rfl
  | serial => rfl
  | master other => rfl
  | slave other => rfl

/-- The counters of all terminals, with the calls of a stack. -/
def AllCount (s : Ttys T) (l : List (Frame T)) : Prop := ∀ t, (s.tty t).Counts (held t l)

/-- Only the secondary queue and the flags are looked at. -/
theorem AllCount.congr (h : AllCount s l)
    (hsecondary : ∀ t, (s'.tty t).secondary = (s.tty t).secondary)
    (htermios : ∀ t, (s'.tty t).termios = (s.tty t).termios)
    (hheld : ∀ t, held t l' = held t l) : AllCount s' l' := by
  intro t
  have ht := h t
  rw [TtyStruct.Counts] at ht ⊢
  rw [hsecondary, htermios, hheld]
  exact ht

/-- A step at one terminal. -/
theorem AllCount.modify (h : AllCount s l) {g : TtyStruct → TtyStruct}
    (hself : (g (s.tty t)).Counts (held t l')) (hheld : ∀ t' ≠ t, held t' l' = held t' l) :
    AllCount (s.modify t g) l' := by
  intro t'
  by_cases ht : t' = t
  · subst ht
    rw [Ttys.modify_tty_self]
    exact hself
  · rw [Ttys.modify_tty_of_ne ht, hheld t' ht]
    exact h t'

theorem AllCount.modifySecondary (h : AllCount s l) {g : TtyQueue → TtyQueue}
    (hself : ({ s.tty t with secondary := g (s.tty t).secondary } : TtyStruct).Counts (held t l'))
    (hheld : ∀ t' ≠ t, held t' l' = held t' l) : AllCount (s.modifySecondary t g) l' :=
  h.modify hself hheld

namespace TtyStruct

variable {y : TtyStruct} {c : BitVec 8} {r : List (BitVec 8)}

/-- A line end is counted. -/
theorem Counts.count (h : y.Counts r) (hc : y.termios.Delim c) :
    ({ y with secondary := { y.secondary with data := y.secondary.data + 1 } } : TtyStruct).Counts
      (c :: r) := by
  rw [Counts] at h ⊢
  show y.secondary.data + 1 =
    BitVec.ofNat 32 ((y.secondary.ring.contents ++ c :: r).countP (y.termios.Delim ·))
  rw [h, List.countP_append, List.countP_append, List.countP_cons, if_pos (decide_eq_true hc),
    ← Nat.add_assoc, BitVec.ofNat_add _ 1]
  rfl

theorem Counts.skip (h : y.Counts r) (hc : ¬ y.termios.Delim c) : y.Counts (c :: r) := by
  rw [Counts] at h ⊢
  rw [h, List.countP_append, List.countP_append, List.countP_cons,
    if_neg (by rw [decide_eq_true_iff]; exact hc), Nat.add_zero]

/-- A counted character is put in the queue. -/
theorem Counts.store (h : y.Counts (c :: r)) (hfull : ¬ y.secondary.ring.Full) :
    ({ y with secondary := y.secondary.putch c } : TtyStruct).Counts r := by
  rw [Counts] at h ⊢
  show y.secondary.data = BitVec.ofNat 32
    (((y.secondary.putch c).ring.contents ++ r).countP (y.termios.Delim ·))
  rw [h, TtyQueue.contents_putch c hfull, List.append_assoc, List.singleton_append]

/-- What is erased is no line end. -/
theorem Counts.erase (h : y.Counts r) (hc : ¬ Cooked.AtStart y) :
    ({ y with secondary := y.secondary.decHead } : TtyStruct).Counts r := by
  obtain ⟨hempty, hlast⟩ := not_or.mp hc
  rw [Counts] at h ⊢
  show y.secondary.data = BitVec.ofNat 32
    ((y.secondary.decHead.ring.contents ++ r).countP (y.termios.Delim ·))
  rw [h, TtyQueue.contents_decHead hempty, List.append_assoc, List.singleton_append,
    List.countP_append, List.countP_append, List.countP_cons,
    if_neg (by rw [decide_eq_true_iff]; exact hlast), Nat.add_zero]

/-- A character is taken, and a line end is discounted. -/
theorem Counts.take (h : y.Counts r) (hempty : ¬ y.secondary.ring.Empty) :
    ({ y with secondary := Read.takeChar y.termios y.secondary } : TtyStruct).Counts r := by
  rw [Counts] at h ⊢
  rw [TtyQueue.contents_incTail hempty, List.cons_append, List.countP_cons] at h
  show (Read.takeChar y.termios y.secondary).data = BitVec.ofNat 32
    ((y.secondary.incTail.ring.contents ++ r).countP (y.termios.Delim ·))
  rw [Read.takeChar]
  by_cases hc : y.termios.Delim y.secondary.ring.front
  · rw [if_pos (decide_eq_true hc), BitVec.ofNat_add _ 1] at h
    simp only [if_pos hc, h]
    exact BitVec.add_sub_cancel _ _
  · rw [if_neg (by rw [decide_eq_true_iff]; exact hc), Nat.add_zero] at h
    simp only [if_neg hc, h]

end TtyStruct

namespace Cooked

theorem dispatch_counts {c : BitVec 8} (h : AllCount s (.cooked t (.got c) :: rest))
    (c' : BitVec 8) : AllCount (dispatch K s t c').1 ((dispatch K s t c').2 ++ rest) := by
  have hsame : ∀ pc : Cooked, (∀ t', Frame.holds t' (.cooked t pc) = []) →
      AllCount s ([.cooked t pc] ++ rest) := fun pc hpc =>
    h.congr (fun _ => rfl) (fun _ => rfl) fun t' => congrArg (· ++ held t' rest) (hpc t')
  have hstopped : ∀ b : Bool, AllCount (s.modify t fun y => { y with stopped := b })
      ((K.kind t).write t ++ [.cooked t .top] ++ rest) := fun b =>
    h.congr (fun t' => Ttys.modify_keeps TtyStruct.secondary s t t' fun _ => rfl)
      (fun t' => Ttys.modify_keeps TtyStruct.termios s t t' fun _ => rfl)
      fun t' => by simp [Frame.holds]
  -- the character is held from now on
  have hholds : ∀ t', held t' ([Frame.cooked t (if (s.tty t).termios.L ECHO then
      .echo (echoed (s.tty t).termios c') c' else .store c')] ++ rest) =
      (if t = t' then [c'] else []) ++ held t' rest := by
    intro t'
    split
    case isTrue => rfl
    case isFalse => rfl
  have ht := h t
  rw [dispatch]
  dsimp only
  split
  case isTrue => exact hsame .kill fun _ => rfl
  split
  case isTrue =>
    split
    case isTrue => exact hsame .top fun _ => rfl
    case isFalse =>
      refine hsame _ fun t' => ?_
      rw [erase]
      split
      case isTrue => rfl
      case isFalse => rfl
  split
  case isTrue => exact hstopped true
  split
  case isTrue => exact hstopped false
  split
  case isTrue => exact hsame .top fun _ => rfl
  by_cases hdelim : (s.tty t).termios.Delim c'
  · rw [if_pos hdelim]
    show AllCount (s.modifySecondary t fun q => { q with data := q.data + 1 }) (_ ++ rest)
    refine h.modifySecondary ?_ fun t' ht' => ?_
    · rw [hholds, if_pos rfl]
      exact ht.count hdelim
    · rw [hholds, if_neg fun heq => ht' heq.symm]
      rfl
  · rw [if_neg hdelim]
    intro t'
    rw [hholds]
    by_cases ht' : t = t'
    · subst ht'
      rw [if_pos rfl]
      exact ht.skip hdelim
    · rw [if_neg ht']
      exact h t'

theorem run_counts {pc : Cooked} (h : AllCount s (.cooked t pc :: rest))
    (hsteady : (Frame.cooked t pc).Steady s rest) :
    AllCount (pc.run K s t).1 ((pc.run K s t).2 ++ rest) := by
  have ht := h t
  cases pc with
  | top =>
    rw [run]
    split
    case isTrue => exact h
    case isFalse => exact h
  | room =>
    rw [run]
    split
    case isTrue => exact h
    case isFalse => exact h
  | get => exact h.congr (by simp [run]) (by simp [run]) fun _ => rfl
  | got c =>
    rw [run]
    split
    · exact h
    · exact dispatch_counts h _
  | kill =>
    rw [run]
    split
    case isTrue => exact h
    case isFalse =>
      rw [erase]
      split
      case isTrue => exact h
      case isFalse => exact h
  | rub cs again =>
    cases cs with
    | nil => exact h.congr (fun _ => rfl) (fun _ => rfl) fun t' => by simp [run, Frame.holds]
    | cons c cs => exact h.congr (by simp [run]) (by simp [run]) fun _ => rfl
  | dec again =>
    refine h.modifySecondary ?_ fun t' _ => ?_
    · cases again with
      | true => exact ht.erase hsteady
      | false => exact ht.erase hsteady
    · cases again with
      | true => rfl
      | false => rfl
  | echo cs c =>
    cases cs with
    | nil => exact h.congr (fun _ => rfl) (fun _ => rfl) fun t' => by simp [run, Frame.holds]
    | cons x cs => exact h.congr (by simp [run]) (by simp [run]) fun _ => rfl
  | store c =>
    rw [held_cons, Frame.holds, if_pos rfl] at ht
    show AllCount (s.modifySecondary t (·.putch c)) ([.cooked t .top] ++ rest)
    refine h.modifySecondary (ht.store hsteady) fun t' ht' => ?_
    rw [held_cons, Frame.holds, if_neg fun heq => ht' heq.symm]
    rfl

end Cooked

/-- Other flags, with which the same characters are line ends. -/
theorem TtyStruct.Counts.relabel {y : TtyStruct} {r : List (BitVec 8)} {m : Termios}
    (h : y.Counts r)
    (hsame : ∀ c ∈ y.secondary.ring.contents ++ r, (y.termios.Delim c ↔ m.Delim c)) :
    ({ y with termios := m } : TtyStruct).Counts r := by
  rw [TtyStruct.Counts] at h ⊢
  show y.secondary.data =
    BitVec.ofNat 32 ((y.secondary.ring.contents ++ r).countP (m.Delim ·))
  rw [h]
  refine congrArg _ (List.countP_congr fun c hc => ?_)
  rw [decide_eq_true_iff, decide_eq_true_iff]
  exact hsame c hc

theorem Con.run_counts {nr : ℕ} {pc : Con} (h : AllCount s (.con t nr pc :: rest))
    (hsteady : (Frame.con t nr pc).Steady s rest) :
    AllCount (pc.run s t nr).1 ((pc.run s t nr).2 ++ rest) := by
  cases pc with
  | enter => exact h
  | test =>
    rw [Con.run]
    split
    case isTrue => exact h
    case isFalse => exact h
  | take => exact h
  | inc c => exact h.congr (by simp [Con.run]) (by simp [Con.run]) fun _ => rfl
  | interp c =>
    have hheld : ∀ t', held t' ((Con.interp c).run s t nr).2 = [] := by
      intro t'
      rw [Con.run]
      dsimp only
      split
      case isTrue => rfl
      case isFalse => rfl
    have ht : (Con.interpret (s.tty t) c).Counts (held t rest) := by
      by_cases hreset : (s.tty t).vc.Resets c
      · have hself := (h t).relabel (hsteady hreset)
        rw [TtyStruct.Counts] at hself ⊢
        rw [Con.interpret, if_pos hreset]
        exact hself
      · have hself := h t
        rw [TtyStruct.Counts] at hself ⊢
        rw [Con.interpret, if_neg hreset]
        exact hself
    show AllCount (s.modify t (Con.interpret · c)) (_ ++ rest)
    refine h.modify ?_ fun t' _ => ?_
    · rw [held_append, hheld]
      exact ht
    · rw [held_append, hheld]
      rfl

theorem ptyCopy_counts {src dst : T} (h : AllCount s (.pty src dst :: rest)) :
    AllCount (ptyCopy s src dst signal).1 ((ptyCopy s src dst signal).2 ++ rest) := by
  rw [ptyCopy]
  split
  case isTrue => exact h
  split
  case isTrue =>
    split
    case isTrue => exact h
    case isFalse => exact h
  refine h.congr (by simp) (by simp) fun t' => ?_
  dsimp only
  split
  case isTrue => rfl
  case isFalse => rfl

theorem Write.run_counts {buf : List (BitVec 8)} {pc : Write}
    (h : AllCount s (.write t buf pc :: rest)) :
    AllCount (pc.run K s t buf signal).1 ((pc.run K s t buf signal).2 ++ rest) := by
  cases pc with
  | outer =>
    rw [Write.run]
    split
    case isTrue => exact h
    split
    case isTrue => exact h
    case isFalse => exact h
  | asleep =>
    rw [Write.run]
    split
    case isTrue => exact h
    case isFalse => exact h
  | signal =>
    rw [Write.run]
    split
    case isTrue => exact h
    case isFalse => exact h
  | inner =>
    rw [Write.run]
    split
    case isTrue => exact h.congr (fun _ => rfl) (fun _ => rfl) fun t' => by simp [Frame.holds]
    case isFalse => exact h
  | fetch =>
    cases buf with
    | nil => exact h
    | cons c cs =>
      rcases hpost : Write.post K (s.tty t).termios s.crFlag c with ⟨c', again, crFlag⟩
      simp only [Write.run, hpost]
      exact h.congr (fun t' => Ttys.modifyWrite_secondary s t t' (·.putch c'))
        (fun t' => Ttys.modifyWrite_termios s t t' (·.putch c')) fun _ => rfl
  | after =>
    rw [Write.run]
    split
    case isTrue => exact h
    case isFalse => exact h

theorem Read.run_counts {nr minimum : ℕ} {buf : List (BitVec 8)} {pc : Read}
    (h : AllCount s (.read t nr minimum buf pc :: rest))
    (hsteady : (Frame.read t nr minimum buf pc).Steady s rest) :
    AllCount (pc.run K s t nr minimum buf signal expired).1
      ((pc.run K s t nr minimum buf signal expired).2 ++ rest) := by
  cases pc with
  | outer =>
    rw [Read.run]
    split
    case isTrue => exact h
    case isFalse => exact h.congr (fun _ => rfl) (fun _ => rfl) fun t' => by simp [Frame.holds]
  | test =>
    rw [Read.run]
    split
    case isTrue =>
      split
      case isTrue => exact h
      case isFalse => exact h
    case isFalse => exact h
  | asleep => exact h
  | take =>
    show AllCount (s.modifySecondary t (Read.takeChar (s.tty t).termios)) (_ ++ rest)
    exact h.modifySecondary ((h t).take hsteady) fun _ _ => rfl
  | more c => exact h
  | done =>
    rw [Read.run]
    split
    case isTrue => exact h
    case isFalse => exact h

theorem Frame.run_counts {f : Frame T} (h : AllCount s (f :: rest)) (hsteady : f.Steady s rest) :
    AllCount (f.run K s signal expired).1 ((f.run K s signal expired).2 ++ rest) := by
  cases f with
  | cooked t pc => exact Cooked.run_counts h hsteady
  | con t nr pc => exact Con.run_counts h hsteady
  | pty src dst => exact ptyCopy_counts h
  | write t buf pc => exact Write.run_counts h
  | read t nr minimum buf pc => exact Read.run_counts h hsteady

namespace Terminals

variable {s s' : Terminals T} {e : TtyEvent T}

/-- A call that may be parked holds no character. -/
theorem held_of_parks {f : Frame T} (h : f.Parks) (t : T) : f.holds t = [] := by
  cases f with
  | write t' buf pc => rfl
  | read t' nr minimum buf pc => rfl
  | cooked t' pc => exact absurd h id
  | con t' nr pc => exact absurd h id
  | pty src dst => exact absurd h id

structure Counted (s : Terminals T) : Prop where
  counts : AllCount s.ttys s.stack
  parked : ∀ f ∈ s.parked, f.Parks

theorem Counted.step (h : s.Counted) (hcan : s.Can K e) (hsteady : s.Steady e) :
    (s.step K e).Counted := by
  obtain ⟨hcounts, hparked⟩ := h
  -- what the events that are no step of a call do to the stack
  have hidle : ∀ {f : Frame T}, s.stack = [] → (∀ t, f.holds t = []) → AllCount s.ttys [f] :=
    fun hstack hf => hcounts.congr (fun _ => rfl) (fun _ => rfl) fun t => by simp [hstack, hf]
  cases e with
  | run signal expired =>
    cases hstack : s.stack with
    | nil => exact absurd hstack hcan
    | cons f rest =>
      rw [hstack] at hcounts
      have hrun : AllCount (f.run K s.ttys signal expired).1
          ((f.run K s.ttys signal expired).2 ++ rest) :=
        Frame.run_counts hcounts (hsteady f rest hstack)
      simp only [Terminals.step, hstack]
      exact ⟨hrun, hparked⟩
  | write t buf => exact ⟨hidle hcan fun _ => rfl, hparked⟩
  | read t nr => exact ⟨hidle hcan fun _ => rfl, hparked⟩
  | setTermios t m =>
    have hset : AllCount (s.ttys.modify t fun y => { y with termios := m }) s.stack :=
      hcounts.modify ((hcounts t).relabel hsteady) fun _ _ => rfl
    exact ⟨hset, hparked⟩
  | flushRead t =>
    exact ⟨hcounts.congr (Ttys.modifyRead_secondary _ t · _) (Ttys.modifyRead_termios _ t · _)
      fun _ => rfl, hparked⟩
  | flushWrite t =>
    exact ⟨hcounts.congr (Ttys.modifyWrite_secondary _ t · _) (Ttys.modifyWrite_termios _ t · _)
      fun _ => rfl, hparked⟩
  | flow t arg =>
    have hstack : s.stack = [] := hcan
    have hstopped : ∀ b : Bool, AllCount (s.ttys.modify t fun y => { y with stopped := b })
        ((K.kind t).write t) := fun b =>
      hcounts.congr (fun t' => Ttys.modify_keeps TtyStruct.secondary s.ttys t t' fun _ => rfl)
        (fun t' => Ttys.modify_keeps TtyStruct.termios s.ttys t t' fun _ => rfl)
        fun t' => by simp [hstack]
    have hput : ∀ c : BitVec 8,
        AllCount (if c ≠ 0 then s.ttys.modifyWrite t (·.putch c) else s.ttys) [] := by
      intro c
      split
      case isTrue => exact hcounts.congr (by simp) (by simp) fun t' => by simp [hstack]
      case isFalse => exact hcounts.congr (fun _ => rfl) (fun _ => rfl) fun t' => by simp [hstack]
    cases arg with
    | TCOOFF => exact ⟨hstopped true, hparked⟩
    | TCOON => exact ⟨hstopped false, hparked⟩
    | TCIOFF => exact ⟨hput _, hparked⟩
    | TCION => exact ⟨hput _, hparked⟩
  | key t cs =>
    exact ⟨hcounts.congr (Ttys.modifyRead_secondary _ t · _) (Ttys.modifyRead_termios _ t · _)
      fun _ => rfl, hparked⟩
  | receive t c =>
    exact ⟨hcounts.congr (Ttys.modifyRead_secondary _ t · _) (Ttys.modifyRead_termios _ t · _)
      fun _ => rfl, hparked⟩
  | sent t =>
    exact ⟨hcounts.congr (Ttys.modifyWrite_secondary _ t · _) (Ttys.modifyWrite_termios _ t · _)
      fun _ => rfl, hparked⟩
  | park =>
    obtain ⟨f, hstack, hf⟩ := hcan
    refine ⟨hcounts.congr (fun _ => rfl) (fun _ => rfl) fun t => ?_, fun g hg => ?_⟩
    · rw [hstack]
      exact (congrArg (· ++ []) (held_of_parks hf t)).symm
    · obtain hg | hg := List.mem_append.mp hg
      · rw [hstack, List.mem_singleton] at hg
        exact hg ▸ hf
      · exact hparked g hg
  | resume i =>
    obtain ⟨hstack, hi⟩ := hcan
    refine ⟨?_, fun g hg => hparked g (List.mem_of_mem_eraseIdx hg)⟩
    show AllCount s.ttys (s.parked[i]?.toList)
    rw [List.getElem?_eq_getElem hi]
    exact hidle hstack (held_of_parks (hparked _ (List.getElem_mem hi)))

theorem counted_of_reach (h : (terminals K).Reach Steady s) : s.Counted := by
  refine h.invariant (I := Counted) (fun s hinit => ?_) fun s e s' hs hsteady hstep => ?_
  · obtain ⟨hstack, hparked, hsettled⟩ := hinit
    refine ⟨fun t => ?_, fun f hf => ?_⟩
    · rw [hstack]
      exact (hsettled t).counts
    · rw [hparked] at hf
      exact absurd hf List.not_mem_nil
  · obtain ⟨hcan, rfl⟩ := hstep
    exact hs.step hcan hsteady

/-- A read at its test goes to sleep next, where no signal comes and the time is not over. -/
def Sleeps (K : TtyTable T) (s : Terminals T) (t : T) : Prop :=
  ∃ nr minimum buf, (s.step K (.run false false)).stack = [.read t nr minimum buf .asleep]

/-- A canonical read of `t` is at its test, and nobody has hung up. -/
def AtTest (K : TtyTable T) (s : Terminals T) (t : T) : Prop :=
  (∃ nr minimum buf, s.stack = [.read t nr minimum buf .test]) ∧
    (s.ttys.tty t).termios.L ICANON ∧ ¬ Read.HungUp s.ttys (K.kind t)

theorem AtTest.sleeps_iff (h : s.AtTest K t) :
    s.Sleeps K t ↔ Read.Waits (s.ttys.tty t) := by
  obtain ⟨⟨nr, minimum, buf, hstack⟩, -, hhung⟩ := h
  have hstep : (s.step K (.run false false)).stack =
      if Read.Waits (s.ttys.tty t) then [.read t nr minimum buf .asleep]
      else [.read t nr minimum buf .take] := by
    simp only [Terminals.step, hstack, Frame.run, Read.run]
    split
    case isTrue => simp [hhung]
    case isFalse => rfl
  rw [Sleeps, hstep]
  split
  case isTrue hwaits => exact iff_of_true ⟨nr, minimum, buf, rfl⟩ hwaits
  case isFalse hwaits =>
    refine iff_of_false (fun ⟨nr', minimum', buf', heq⟩ => ?_) hwaits
    cases heq

/-- No line end is in the secondary queue. -/
def NoLine (y : TtyStruct) : Prop := ∀ c ∈ y.secondary.ring.contents, ¬ y.termios.Delim c

theorem data_eq_zero_iff {y : TtyStruct} (h : y.Counts []) : y.secondary.data = 0 ↔ NoLine y := by
  rw [TtyStruct.Counts, List.append_nil] at h
  have hle : y.secondary.ring.contents.countP (y.termios.Delim ·) < 2 ^ 32 := by
    have hcount := List.countP_le_length (p := (y.termios.Delim ·)) (l := y.secondary.ring.contents)
    have hlen := y.secondary.ring.count_le
    rw [RingBuffer.length_contents] at hcount
    omega
  rw [h, ← BitVec.toNat_inj, BitVec.toNat_ofNat, Nat.mod_eq_of_lt hle]
  show _ = 0 ↔ _
  rw [List.countP_eq_zero, NoLine]
  simp only [decide_eq_true_eq]

end Terminals

/-- In every run whose steps are steady, `data` is the number of line ends in the secondary queue
and of those that are counted and about to be put in it; and a canonical read sleeps exactly if
the queue is empty, or no line end is in it and the read queue is not full. -/
theorem line_count (K : TtyTable T) (s : Terminals T)
    (h : (terminals K).Reach Terminals.Steady s) (t : T) :
    (s.ttys.tty t).secondary.data = BitVec.ofNat 32
        (((s.ttys.tty t).secondary.ring.contents ++ held t s.stack).countP
          ((s.ttys.tty t).termios.Delim ·)) ∧
      (s.AtTest K t → (s.Sleeps K t ↔ (s.ttys.tty t).secondary.ring.Empty ∨
        (¬ (s.ttys.tty t).readQ.ring.Full ∧ Terminals.NoLine (s.ttys.tty t)))) := by
  have hcounts := (Terminals.counted_of_reach h).counts t
  refine ⟨hcounts, fun htest => ?_⟩
  obtain ⟨⟨nr, minimum, buf, hstack⟩, hcanon, -⟩ := id htest
  rw [hstack] at hcounts
  rw [htest.sleeps_iff, Read.Waits, ← Terminals.data_eq_zero_iff hcounts]
  simp only [hcanon, true_and]

/-- The same without the conditions: a canonical read sleeps exactly if there is no line. -/
def Terminals.Exact (K : TtyTable T) (s : Terminals T) : Prop :=
  ∀ t, (s.ttys.tty t).Counts (held t s.stack) ∧
    (s.AtTest K t → (s.Sleeps K t ↔ Terminals.NoLine (s.ttys.tty t)))

/-! ### A full line -/

/-- As many letters as fit, and one `^D`. -/
def letters : RingBuffer 1023 (BitVec 8) :=
  { noChars with head := Fin.last 1023, buf := fun _ => 97 }
def ctrlD : RingBuffer 1023 (BitVec 8) := noChars.push 4

theorem letters_noLine (c : BitVec 8) (hc : c ∈ letters.contents) : ¬ DEF_TERMIOS.Delim c := by
  obtain ⟨i, -, rfl⟩ := List.mem_map.mp hc
  show ¬ DEF_TERMIOS.Delim 97
  decide

theorem letters_full : letters.Full := by decide

/-- A read of a line that fills both queues. -/
def readFull : Terminals Unit :=
  ((lineOf 0 letters letters).step serialLine (.read () 5)).step serialLine (.run false false)

theorem readFull_stack : readFull.stack = [.read () 5 5 [] .test] := by decide

theorem readFull_reach : (terminals serialLine).Reach Terminals.Steady readFull := by
  have hcount : letters.contents.countP (DEF_TERMIOS.Delim ·) = 0 :=
    List.countP_eq_zero.mpr fun c hc => by
      rw [decide_eq_true_iff]
      exact letters_noLine c hc
  have hinit : (terminals serialLine).init (lineOf 0 letters letters) :=
    lineOf_init (by rw [hcount]; rfl)
  have hread : (terminals serialLine).Reach Terminals.Steady
      ((lineOf 0 letters letters).step serialLine (.read () 5)) :=
    .step (a := .read () 5) (.init hinit) trivial ⟨rfl, rfl⟩
  refine .step (a := .run false false) hread (fun f rest hstack => ?_) ⟨nofun, rfl⟩
  obtain ⟨rfl, rfl⟩ := List.cons.inj hstack
  trivial

theorem readFull_atTest : readFull.AtTest serialLine () :=
  ⟨⟨5, 5, [], readFull_stack⟩, by decide, id⟩

/-- The read of the full line does not sleep. -/
theorem line_count_full : (readFull.ttys.tty ()).secondary.data = 0 ∧
    (readFull.Sleeps serialLine () ↔ (readFull.ttys.tty ()).secondary.ring.Empty ∨
      (¬ (readFull.ttys.tty ()).readQ.ring.Full ∧
        Terminals.NoLine (readFull.ttys.tty ()))) :=
  ⟨rfl, (line_count serialLine readFull readFull_reach ()).2 readFull_atTest⟩

/-- There is no line for it; and `^D` stays counted when it is no longer the `EOF` character. -/
theorem line_count_inexact :
    (¬ ∀ s, (terminals serialLine).Reach Terminals.Steady s → s.Exact serialLine) ∧
      ¬ ∀ s, (terminals serialLine).Reachable s → s.Exact serialLine := by
  constructor
  · intro h
    have hsleeps := ((h readFull readFull_reach ()).2 readFull_atTest).mpr letters_noLine
    have hwaits := readFull_atTest.sleeps_iff.mp hsleeps
    rcases hwaits with hempty | ⟨-, hfull, -⟩
    · exact absurd hempty (by decide)
    · exact hfull letters_full
  · intro h
    have hinit : (terminals serialLine).init (lineOf 1 ctrlD noChars) := lineOf_init (by decide)
    set m : Termios := { DEF_TERMIOS with cc := Function.update INIT_C_CC VEOF 5 }
    have hreach : (terminals serialLine).Reachable
        ((lineOf 1 ctrlD noChars).step serialLine (.setTermios () m)) :=
      .step (a := .setTermios () m) (.init hinit) trivial ⟨rfl, rfl⟩
    have hdata : (1 : BitVec 32) = BitVec.ofNat 32 ((ctrlD.contents ++ []).countP (m.Delim ·)) :=
      (h _ hreach ()).1
    revert hdata
    decide

end Tty
