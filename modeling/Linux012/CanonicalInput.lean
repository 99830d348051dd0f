/-
Input in lines: `copy_to_cooked` and `tty_read` with `ICANON` (kernel/chr_drv/tty_io.c).

* `keyOf`, `echoOf`, `Reference` — a line editor with the settings of a terminal, and its echo;
* `Cooks` — a run of `copy_to_cooked`, in which characters of the write queue may be taken at any
  time;
* `Typing` — a terminal with a reader, and the line editor beside it;
* `Sane` — the byte is not one that the code takes for another or echoes otherwise;
* `canonical_input` — in the runs with such bytes the reads and the echo are those of the line
  editor.

Design notes: `tty->write` only takes characters from the write queue here. A key is processed in
one step, and the steps of `tty_read` come between the keys.
-/
import Linux012.Tty
import Linux012.LineEditor

namespace Tty

open LineEditor (Line Editor Key)

/-! ### The reference -/

/-- The byte is this special character. -/
def Termios.Special (m : Termios) (i : Fin 17) (c : BitVec 8) : Prop := m.cc i ≠ 0 ∧ c = m.cc i

instance (m : Termios) (i : Fin 17) (c : BitVec 8) : Decidable (m.Special i c) :=
  inferInstanceAs (Decidable (_ ∧ _))

/-- `ICRNL`, which goes before `IGNCR`, and `INLCR`. -/
def crnl (m : Termios) (b : BitVec 8) : Option (BitVec 8) :=
  if b = 13 then if m.I ICRNL then some 10 else if m.I IGNCR then none else some b
  else if b = 10 ∧ m.I INLCR then some 13
  else some b

/-- A capital as a small letter. -/
def lowered (c : BitVec 8) : BitVec 8 := if 65 ≤ c.toNat ∧ c.toNat ≤ 90 then c + 32 else c

/-- What a byte stands for; some are ignored. -/
def mappedIn (m : Termios) (b : BitVec 8) : Option (BitVec 8) :=
  (crnl m b).map fun c => if m.I IUCLC then lowered c else c

/-- What a character does to the line. -/
def keyOf (m : Termios) (c : BitVec 8) : Key (BitVec 8) :=
  if m.Special VKILL c then .kill
  else if m.Special VERASE c then .erase
  else if m.I IXON ∧ (m.Special VSTOP c ∨ m.Special VSTART c) then .ignored
  else if m.L ISIG ∧ (m.Special VINTR c ∨ m.Special VQUIT c ∨ m.Special VSUSP c) then .ignored
  else if m.Special VEOF c then .eof
  else if c = 10 then .newline c
  else .byte c

/-- The echo of a character. -/
def echoOf (m : Termios) (c : BitVec 8) : List (BitVec 8) :=
  if c = 10 then [10, 13]
  else if c.toNat < 32 then if m.L ECHOCTL then [94, c + 64] else []
  else [c]

/-- What takes the echo of a character off the screen. -/
def rubOf (m : Termios) (c : BitVec 8) : List (BitVec 8) := List.replicate (echoOf m c).length 127

/-- The echo of a key. -/
def echoKey (m : Termios) (line : List (BitVec 8)) (c : BitVec 8) : List (BitVec 8) :=
  match keyOf m c with
  | .ignored => []
  | .erase => line.getLast?.toList.flatMap (rubOf m)
  | .kill => line.reverse.flatMap (rubOf m)
  | _ => echoOf m c

/-- The line editor, and all its echo. -/
structure Reference where
  editor : Editor (BitVec 8)
  out : List (BitVec 8)

def Reference.type (m : Termios) (r : Reference) (b : BitVec 8) : Reference :=
  match mappedIn m b with
  | none => r
  | some c => ⟨r.editor.press (keyOf m c),
      r.out ++ if m.L ECHO then echoKey m r.editor.line c else []⟩

/-! ### The code -/

variable {T : Type} [DecidableEq T]

/-- Nothing but the write queue of `t` changes, and in it nothing is put. -/
structure Took (t : T) (s s' : Ttys T) : Prop where
  termios : (s'.tty t).termios = (s.tty t).termios
  readQ : (s'.tty t).readQ = (s.tty t).readQ
  secondary : (s'.tty t).secondary = (s.tty t).secondary
  put : (s'.tty t).writeQ.put = (s.tty t).writeQ.put

/-- A run of `copy_to_cooked` to its end. -/
inductive Cooks (K : TtyTable T) (t : T) : Ttys T → Cooked → Ttys T → Prop where
  | ends {s s' s'' : Ttys T} {pc : Cooked} (hrun : pc.run K s t = (s', []))
      (htook : Took t s' s'') : Cooks K t s pc s''
  | goes {s s' s₁ s'' : Ttys T} {pc pc' : Cooked} {frames : List (Frame T)}
      (hrun : pc.run K s t = (s', frames)) (hnext : frames.getLast? = some (.cooked t pc'))
      (htook : Took t s' s₁) (hrest : Cooks K t s₁ pc' s'') : Cooks K t s pc s''

/-- A call of `tty_read` for `size` bytes. -/
structure Reading where
  size : ℕ
  nr : ℕ
  minimum : ℕ
  buf : List (BitVec 8)
  pc : Read

structure Typing (T : Type) where
  ttys : Ttys T
  reader : Option Reading
  /-- what the calls of `tty_read` have read -/
  read : List (List (BitVec 8))
  /-- the line editor, and what is read from it, `none` where it has no line (not in the source) -/
  ref : Reference
  expected : List (Option (List (BitVec 8)))

inductive TypingEvent where
  | key (b : BitVec 8)
  | read (n : ℕ)
  /-- the call of `tty_read` goes on, where a signal may be there, or the time be over -/
  | go (signal expired : Bool)
  /-- characters are taken from the write queue -/
  | others

namespace Typing

/-- A call of `tty_read` returns; from the line editor is read if it was not cut short. -/
def returned (s : Typing T) (x : Reading) : Typing T :=
  let s := { s with reader := none, read := s.read ++ [x.buf] }
  match x.pc with
  | .done =>
    match s.ref.editor.read x.size with
    | some (r, e) =>
      { s with ref := { s.ref with editor := e }, expected := s.expected ++ [some r] }
    | none => { s with expected := s.expected ++ [none] }
  | _ => { s with expected := s.expected ++ [some []] }

/-- The next step of `tty_read`. -/
def goOn (s : Typing T) (K : TtyTable T) (t : T) (x : Reading) (signal expired : Bool) :
    Typing T :=
  let (ttys, frames) := x.pc.run K s.ttys t x.nr x.minimum x.buf signal expired
  let s := { s with ttys := ttys }
  match frames.getLast? with
  | some (.read _ nr minimum buf pc) => { s with reader := some ⟨x.size, nr, minimum, buf, pc⟩ }
  | _ => s.returned x

/-- The steps, as long as no queue is full. -/
inductive Step (K : TtyTable T) (t : T) (m : Termios) (s : Typing T) :
    TypingEvent → Typing T → Prop where
  | key {b : BitVec 8} {ttys : Ttys T} (hroom : ¬ (s.ttys.tty t).secondary.ring.Full)
      (h : Cooks K t (s.ttys.modifyRead t (·.putch b)) .top ttys) :
      Step K t m s (.key b) { s with ttys := ttys, ref := s.ref.type m b }
  | read {n : ℕ} (hnone : s.reader = none) : Step K t m s (.read n)
      { s with reader := some ⟨n, n, Read.minimum m n, [], .outer⟩ }
  | go {x : Reading} {signal expired : Bool} (hsome : s.reader = some x) :
      Step K t m s (.go signal expired) (s.goOn K t x signal expired)
  | others {ttys : Ttys T} (h : Took t s.ttys ttys) : Step K t m s .others { s with ttys := ttys }

end Typing

/-- The runs with the settings `m`, from a terminal without input. -/
def typing (K : TtyTable T) (t : T) (m : Termios) : System (Typing T) TypingEvent where
  init s := m.L ICANON ∧ (s.ttys.tty t).termios = m ∧ (s.ttys.tty t).readQ.ring.Empty ∧
    (s.ttys.tty t).secondary.ring.Empty ∧ (s.ttys.tty t).secondary.data = 0 ∧ s.reader = none ∧
    s.read = [] ∧ s.ref = ⟨⟨[], []⟩, (s.ttys.tty t).writeQ.put⟩ ∧ s.expected = []
  step s e s' := s.Step K t m e s'

/-- The special characters that are looked for. -/
def Termios.Consults (m : Termios) (i : Fin 17) : Prop :=
  i = VKILL ∨ i = VERASE ∨ i = VEOF ∨ (m.I IXON ∧ (i = VSTOP ∨ i = VSTART)) ∨
    (m.L ISIG ∧ (i = VINTR ∨ i = VQUIT ∨ i = VSUSP))

/-- A byte, on a terminal with the unfinished line `line`, that is handled as in the line editor:
`tolower` is asked for a character in its table; one from 128 on is no special character, and is
not echoed; and no control character is erased from a screen on which it was not shown. -/
structure Sane (K : TtyTable T) (m : Termios) (line : List (BitVec 8)) (b : BitVec 8) : Prop where
  lower : ∀ c ∈ crnl m b, m.I IUCLC → K.lower c = lowered c
  special : ∀ c ∈ mappedIn m b, 128 ≤ c.toNat → ∀ i, m.Consults i → ¬ m.Special i c
  echo : ∀ c ∈ mappedIn m b, m.L ECHO → c.toNat < 128
  erase : ∀ c ∈ mappedIn m b, m.L ECHO → ¬ m.L ECHOCTL →
    (keyOf m c = .erase → ∀ x ∈ line.getLast?, 32 ≤ x.toNat) ∧
    (keyOf m c = .kill → ∀ x ∈ line, 32 ≤ x.toNat)

/-- The key, if the event is one, is sane. -/
def Typing.Careful (K : TtyTable T) (m : Termios) (s : Typing T) : TypingEvent → Prop
  | .key b => Sane K m s.ref.editor.line b
  | _ => True

variable {K : TtyTable T} {t : T} {m : Termios} {s s' s'' : Ttys T} {pc pc' : Cooked}
  {frames : List (Frame T)} {rd sec out line A : List (BitVec 8)} {data : BitVec 32}
  {c b : BitVec 8}

/-! ### Runs of `copy_to_cooked` -/

namespace Took

omit [DecidableEq T] in
theorem refl (s : Ttys T) : Took t s s := ⟨rfl, rfl, rfl, rfl⟩

end Took

/-- The terminal `t`, as far as input is concerned. -/
structure Holds (t : T) (m : Termios) (rd sec : List (BitVec 8)) (data : BitVec 32)
    (out : List (BitVec 8)) (s : Ttys T) : Prop where
  termios : (s.tty t).termios = m
  read : (s.tty t).readQ.ring.contents = rd
  secondary : (s.tty t).secondary.ring.contents = sec
  data : (s.tty t).secondary.data = data
  put : (s.tty t).writeQ.put = out

namespace Holds

omit [DecidableEq T] in
theorem took (h : Holds t m rd sec data out s) (h' : Took t s s') : Holds t m rd sec data out s' :=
  ⟨h'.termios.trans h.termios, by rw [h'.readQ, h.read], by rw [h'.secondary, h.secondary],
    by rw [h'.secondary, h.data], h'.put.trans h.put⟩

omit [DecidableEq T] in
theorem not_full (h : Holds t m rd sec data out s) (hroom : sec.length < 1023) :
    ¬ (s.tty t).secondary.ring.Full := by
  rw [RingBuffer.full_iff, ← RingBuffer.length_contents, h.secondary]
  omega

omit [DecidableEq T] in
theorem empty_iff (h : Holds t m rd sec data out s) :
    (s.tty t).secondary.ring.Empty ↔ sec = [] := by
  rw [RingBuffer.empty_iff_contents, h.secondary]

theorem store (h : Holds t m rd sec data out s) (hroom : sec.length < 1023) (c : BitVec 8) :
    Holds t m rd (sec ++ [c]) data out (s.modifySecondary t (·.putch c)) := by
  have htty : (s.modifySecondary t (·.putch c)).tty t =
      { s.tty t with secondary := (s.tty t).secondary.putch c } := Ttys.modify_tty_self _ _ _
  refine ⟨?_, ?_, ?_, ?_, ?_⟩
  · rw [htty, h.termios]
  · rw [htty, h.read]
  · rw [htty, TtyQueue.contents_putch c (h.not_full hroom), h.secondary]
  · rw [htty]
    exact h.data
  · rw [htty, h.put]

theorem count (h : Holds t m rd sec data out s) : Holds t m rd sec (data + 1) out
    (s.modifySecondary t fun q => { q with data := q.data + 1 }) := by
  have htty : (s.modifySecondary t fun q => { q with data := q.data + 1 }).tty t =
      { s.tty t with secondary := { (s.tty t).secondary with
        data := (s.tty t).secondary.data + 1 } } := Ttys.modify_tty_self _ _ _
  refine ⟨?_, ?_, ?_, ?_, ?_⟩
  · rw [htty, h.termios]
  · rw [htty, h.read]
  · rw [htty, h.secondary]
  · rw [htty, h.data]
  · rw [htty, h.put]

theorem dec (h : Holds t m rd (sec ++ [c]) data out s) :
    Holds t m rd sec data out (s.modifySecondary t .decHead) := by
  have htty : (s.modifySecondary t .decHead).tty t =
      { s.tty t with secondary := (s.tty t).secondary.decHead } := Ttys.modify_tty_self _ _ _
  have hempty : ¬ (s.tty t).secondary.ring.Empty := fun hempty => by
    have hnil := h.empty_iff.mp hempty
    simp at hnil
  have hsplit := TtyQueue.contents_decHead hempty
  rw [h.secondary] at hsplit
  refine ⟨?_, ?_, ?_, ?_, ?_⟩
  · rw [htty, h.termios]
  · rw [htty, h.read]
  · rw [htty]
    exact (List.append_inj_left' hsplit rfl).symm
  · rw [htty]
    exact h.data
  · rw [htty, h.put]

theorem echo (h : Holds t m rd sec data out s) (c : BitVec 8) :
    Holds t m rd sec data (out ++ [c]) (s.modifyWrite t (·.putch c)) := by
  have htty : (s.modifyWrite t (·.putch c)).tty t =
      { s.tty t with writeQ := (s.tty t).writeQ.putch c } := Ttys.modify_tty_self _ _ _
  refine ⟨?_, ?_, ?_, ?_, ?_⟩
  · rw [htty, h.termios]
  · rw [htty, h.read]
  · rw [htty, h.secondary]
  · rw [htty, h.data]
  · rw [htty]
    exact congrArg (· ++ [c]) h.put

theorem take (h : Holds t m (c :: rd) sec data out s) : (s.tty t).readQ.ring.front = c ∧
    Holds t m rd sec data out (s.modifyRead t .incTail) := by
  have htty : (s.modifyRead t .incTail).tty t =
      { s.tty t with readQ := (s.tty t).readQ.incTail } := Ttys.modify_tty_self _ _ _
  have hempty : ¬ (s.tty t).readQ.ring.Empty := fun hempty => by
    rw [RingBuffer.empty_iff_contents, h.read] at hempty
    cases hempty
  have hpop := TtyQueue.contents_incTail hempty
  rw [h.read] at hpop
  obtain ⟨hfront, hrest⟩ := List.cons.inj hpop
  refine ⟨hfront.symm, ?_, ?_, ?_, ?_, ?_⟩
  · rw [htty, h.termios]
  · rw [htty]
    exact hrest.symm
  · rw [htty, h.secondary]
  · rw [htty, h.data]
  · rw [htty, h.put]

/-- `tty_read` takes a character. -/
theorem getch (h : Holds t m rd (c :: sec) data out s) : (s.tty t).secondary.ring.front = c ∧
    Holds t m rd sec (if m.Delim c then data - 1 else data) out
      (s.modifySecondary t (Read.takeChar m)) := by
  have htty : (s.modifySecondary t (Read.takeChar m)).tty t =
      { s.tty t with secondary := Read.takeChar m (s.tty t).secondary } :=
    Ttys.modify_tty_self _ _ _
  have hempty : ¬ (s.tty t).secondary.ring.Empty := fun hempty => by
    have hnil := h.empty_iff.mp hempty
    cases hnil
  have hpop := TtyQueue.contents_incTail hempty
  rw [h.secondary] at hpop
  obtain ⟨hfront, hrest⟩ := List.cons.inj hpop
  refine ⟨hfront.symm, ?_, ?_, ?_, ?_, ?_⟩
  · rw [htty, h.termios]
  · rw [htty, h.read]
  · rw [htty]
    exact hrest.symm
  · rw [htty, Read.takeChar, ← hfront, h.data]
  · rw [htty, h.put]

theorem stop (h : Holds t m rd sec data out s) (b : Bool) :
    Holds t m rd sec data out (s.modify t fun y => { y with stopped := b }) := by
  have htty : (s.modify t fun y => { y with stopped := b }).tty t =
      { s.tty t with stopped := b } := Ttys.modify_tty_self _ _ _
  refine ⟨?_, ?_, ?_, ?_, ?_⟩
  · rw [htty, h.termios]
  · rw [htty, h.read]
  · rw [htty, h.secondary]
  · rw [htty, h.data]
  · rw [htty, h.put]

end Holds

/-- `copy_to_cooked` ends, and always so that `Q` holds. -/
structure Does (K : TtyTable T) (t : T) (s : Ttys T) (pc : Cooked) (Q : Ttys T → Prop) : Prop where
  ends : ∃ s', Cooks K t s pc s'
  holds : ∀ s', Cooks K t s pc s' → Q s'

namespace Does

variable {Q Q' : Ttys T → Prop}

theorem mono (h : Does K t s pc Q) (hQ : ∀ s, Q s → Q' s) : Does K t s pc Q' :=
  ⟨h.ends, fun s' hs' => hQ s' (h.holds s' hs')⟩

theorem stops (hrun : pc.run K s t = (s', [])) (h : ∀ s'', Took t s' s'' → Q s'') :
    Does K t s pc Q := by
  refine ⟨⟨s', .ends hrun (.refl s')⟩, fun s₁ hs₁ => ?_⟩
  cases hs₁ with
  | ends hrun' htook =>
    obtain ⟨rfl, -⟩ := Prod.mk.inj (hrun.symm.trans hrun')
    exact h s₁ htook
  | goes hrun' hnext htook hrest =>
    obtain ⟨-, rfl⟩ := Prod.mk.inj (hrun.symm.trans hrun')
    cases hnext

theorem goes (hrun : pc.run K s t = (s', frames)) (hnext : frames.getLast? = some (.cooked t pc'))
    (h : ∀ s'', Took t s' s'' → Does K t s'' pc' Q) : Does K t s pc Q := by
  obtain ⟨s₁, hs₁⟩ := (h s' (.refl s')).ends
  refine ⟨⟨s₁, .goes hrun hnext (.refl s') hs₁⟩, fun s₂ hs₂ => ?_⟩
  cases hs₂ with
  | ends hrun' htook =>
    obtain ⟨-, rfl⟩ := Prod.mk.inj (hrun.symm.trans hrun')
    cases hnext
  | goes hrun' hnext' htook hrest =>
    obtain ⟨rfl, rfl⟩ := Prod.mk.inj (hrun.symm.trans hrun')
    obtain ⟨-, rfl⟩ := Frame.cooked.inj (Option.some.inj (hnext.symm.trans hnext'))
    exact (h _ htook).holds s₂ hrest

/-- The rule for a state that is described. -/
theorem next (hrun : pc.run K s t = (s', frames)) (hnext : frames.getLast? = some (.cooked t pc'))
    (hs' : Holds t m rd sec data out s')
    (h : ∀ s'', Holds t m rd sec data out s'' → Does K t s'' pc' Q) : Does K t s pc Q :=
  goes hrun hnext fun s'' hs'' => h s'' (hs'.took hs'')

end Does

/-! ### One character -/

/-- The read queue is empty: the loop ends. -/
theorem does_top (h : Holds t m [] sec data out s) :
    Does K t s .top (Holds t m [] sec data out) := by
  have hempty : (s.tty t).readQ.ring.Empty := RingBuffer.empty_iff_contents.mpr h.read
  exact .stops (if_pos hempty) fun s'' hs'' => h.took hs''

theorem does_store (h : Holds t m [] sec data out s) (hroom : sec.length < 1023) (c : BitVec 8) :
    Does K t s (.store c) (Holds t m [] (sec ++ [c]) data out) :=
  .next rfl rfl (h.store hroom c) fun _ hs => does_top hs

theorem does_echo (h : Holds t m [] sec data out s) (hroom : sec.length < 1023)
    (cs : List (BitVec 8)) (c : BitVec 8) :
    Does K t s (.echo cs c) (Holds t m [] (sec ++ [c]) data (out ++ cs)) := by
  induction cs generalizing s out with
  | nil =>
    rw [List.append_nil]
    exact .next rfl List.getLast?_concat h fun _ hs => does_store hs hroom c
  | cons x cs ih =>
    have hout : out ++ x :: cs = out ++ [x] ++ cs := List.append_cons out x cs
    rw [hout]
    exact .next rfl rfl (h.echo x) fun _ hs => ih hs

/-- The characters that take one off the screen. -/
theorem does_rub {Q : Ttys T → Prop} (h : Holds t m [] sec data out s) (cs : List (BitVec 8))
    (again : Bool) (hrest : ∀ s', Holds t m [] sec data (out ++ cs) s' →
      Does K t s' (.dec again) Q) : Does K t s (.rub cs again) Q := by
  induction cs generalizing s out with
  | nil =>
    refine .next rfl List.getLast?_concat h fun s' hs' => hrest s' ?_
    rwa [List.append_nil]
  | cons x cs ih =>
    refine .next rfl rfl (h.echo x) fun s' hs' => ih hs' fun s'' hs'' => hrest s'' ?_
    rwa [List.append_assoc] at hs''

omit [DecidableEq T] in
theorem Holds.last (h : Holds t m rd (sec ++ [c]) data out s) :
    (s.tty t).secondary.ring.last = c := by
  have hempty : ¬ (s.tty t).secondary.ring.Empty := fun hempty => by
    have hnil := h.empty_iff.mp hempty
    simp at hnil
  have hsplit := RingBuffer.contents_unpush hempty
  rw [h.secondary] at hsplit
  exact (List.cons.inj (List.append_inj_right' hsplit rfl)).1.symm

/-- `A` are finished lines. -/
def Ended (m : Termios) (A : List (BitVec 8)) : Prop :=
  A = [] ∨ ∃ front c, A = front ++ [c] ∧ m.Delim c

omit [DecidableEq T] in
/-- There is nothing to erase just if the line is empty. -/
theorem Holds.atStart_iff (h : Holds t m rd (A ++ line) data out s) (hA : Ended m A)
    (hline : ∀ x ∈ line, ¬ m.Delim x) : Cooked.AtStart (s.tty t) ↔ line = [] := by
  rw [Cooked.AtStart, h.empty_iff, h.termios]
  cases line using List.reverseRecOn with
  | nil =>
    rw [List.append_nil] at h ⊢
    refine ⟨fun _ => rfl, fun _ => ?_⟩
    obtain rfl | ⟨front, c, rfl, hc⟩ := hA
    · exact .inl rfl
    · rw [h.last]
      exact .inr hc
  | append_singleton l x =>
    rw [← List.append_assoc] at h ⊢
    rw [h.last]
    refine ⟨fun hstart => ?_, fun hnil => absurd hnil (by simp)⟩
    obtain hnil | hdelim := hstart
    · exact absurd hnil (by simp)
    · exact absurd hdelim (hline x (List.mem_append_right l (List.mem_singleton_self x)))

/-- A character is erased, with its echo. -/
theorem does_erase {Q : Ttys T → Prop} {x : BitVec 8} (h : Holds t m [] (sec ++ [x]) data out s)
    (again : Bool) (hrun : pc.run K s t = (s, [.cooked t (Cooked.erase (s.tty t) again)]))
    (hrest : ∀ s', Holds t m [] sec data (out ++ if m.L ECHO then Cooked.rubOut x else []) s' →
      Does K t s' (if again then .kill else .top) Q) : Does K t s pc Q := by
  refine .next hrun rfl h fun s' hs' => ?_
  rw [Cooked.erase, h.termios, h.last]
  by_cases hecho : m.L ECHO
  · rw [if_pos hecho]
    refine does_rub hs' _ again fun s'' hs'' => ?_
    refine .next rfl rfl hs''.dec fun s₁ hs₁ => hrest s₁ ?_
    rwa [if_pos hecho]
  · rw [if_neg hecho]
    refine .next rfl rfl hs'.dec fun s₁ hs₁ => hrest s₁ ?_
    rwa [if_neg hecho, List.append_nil]

/-- The loop of the kill character erases the line from its end. -/
theorem does_kill (h : Holds t m [] (A ++ line) data out s) (hA : Ended m A)
    (hline : ∀ x ∈ line, ¬ m.Delim x) : Does K t s .kill (Holds t m [] A data
      (out ++ if m.L ECHO then line.reverse.flatMap Cooked.rubOut else [])) := by
  induction line using List.reverseRecOn generalizing s out with
  | nil =>
    have hstart := (h.atStart_iff hA hline).mpr rfl
    have hout : out ++ (if m.L ECHO then ([] : List (BitVec 8)).reverse.flatMap Cooked.rubOut
        else []) = out := by simp
    rw [hout]
    rw [List.append_nil] at h
    exact .next (if_pos hstart) rfl h fun s' hs' => does_top hs'
  | append_singleton l x ih =>
    have hstart : ¬ Cooked.AtStart (s.tty t) := fun hstart => by
      have hnil := (h.atStart_iff hA hline).mp hstart
      simp at hnil
    rw [← List.append_assoc] at h
    refine does_erase h true (if_neg hstart) fun s' hs' => ?_
    refine (ih hs' fun y hy => hline y (List.mem_append_left _ hy)).mono fun s'' hs'' => ?_
    rw [List.reverse_append, List.reverse_singleton, List.singleton_append, List.flatMap_cons]
    rw [List.append_assoc] at hs''
    by_cases hecho : m.L ECHO
    · simp only [if_pos hecho] at hs'' ⊢
      exact hs''
    · simp only [if_neg hecho, List.nil_append] at hs'' ⊢
      exact hs''

/-- The echo that the code makes. -/
def echoedKey (m : Termios) (line : List (BitVec 8)) (c : BitVec 8) : List (BitVec 8) :=
  match keyOf m c with
  | .ignored => []
  | .erase => line.getLast?.toList.flatMap Cooked.rubOut
  | .kill => line.reverse.flatMap Cooked.rubOut
  | _ => Cooked.echoed m c

/-- What is in the secondary queue after a key. -/
def pressed (m : Termios) (A line : List (BitVec 8)) (c : BitVec 8) : List (BitVec 8) :=
  match keyOf m c with
  | .ignored => A ++ line
  | .erase => A ++ line.dropLast
  | .kill => A
  | _ => A ++ line ++ [c]

/-- Its line count. -/
def counted (m : Termios) (data : BitVec 32) (c : BitVec 8) : BitVec 32 :=
  match keyOf m c with
  | .newline _ | .eof => data + 1
  | _ => data

/-- A special character that is looked for is found by its byte. -/
theorem is_iff (hc : 128 ≤ c.toNat → ∀ i, m.Consults i → ¬ m.Special i c) {i : Fin 17}
    (hi : m.Consults i) : m.Is c i ↔ m.Special i c := by
  rw [Termios.Is, Termios.Special]
  refine and_congr_right fun _ => ?_
  have hlt := (m.cc i).isLt
  by_cases hhigh : 128 ≤ c.toNat
  · have hint : c.toInt = c.toNat - 256 := by
      rw [BitVec.toInt_eq_toNat_cond]
      rw [if_neg (by omega)]
      rfl
    have hltc := c.isLt
    refine ⟨fun heq => by omega, fun heq => ?_⟩
    exact absurd ⟨‹_›, heq⟩ (hc hhigh i hi)
  · have hint : c.toInt = c.toNat := BitVec.toInt_eq_toNat_of_lt (by omega)
    rw [hint]
    constructor
    · exact fun heq => BitVec.eq_of_toNat_eq (by omega)
    · rintro rfl
      rfl

/-- A character that is not dropped is echoed and stored. -/
theorem does_put (hroom : sec.length < 1023)
    (hrun : pc.run K s t = (s', [.cooked t (if m.L ECHO then .echo (Cooked.echoed m c) c
      else .store c)])) (hs' : Holds t m [] sec data out s') :
    Does K t s pc (Holds t m [] (sec ++ [c]) data
      (out ++ if m.L ECHO then Cooked.echoed m c else [])) := by
  refine .next hrun rfl hs' fun s'' hs'' => ?_
  by_cases hecho : m.L ECHO
  · rw [if_pos hecho, if_pos hecho]
    exact does_echo hs'' hroom _ c
  · rw [if_neg hecho, if_neg hecho, List.append_nil]
    exact does_store hs'' hroom c

/-- What a translated character does. -/
theorem does_dispatch (hcanon : m.L ICANON) (h : Holds t m [] (A ++ line) data out s)
    (hA : Ended m A) (hline : ∀ x ∈ line, ¬ m.Delim x) (hroom : (A ++ line).length < 1023)
    (hc : 128 ≤ c.toNat → ∀ i, m.Consults i → ¬ m.Special i c)
    (hrun : pc.run K s t = Cooked.dispatch K s t c) :
    Does K t s pc (Holds t m [] (pressed m A line c) (counted m data c)
      (out ++ if m.L ECHO then echoedKey m line c else [])) := by
  have his := fun i (hi : m.Consults i) => is_iff hc hi
  rw [Cooked.dispatch] at hrun
  dsimp only at hrun
  rw [h.termios] at hrun
  by_cases hkill : m.Special VKILL c
  · have hkey : keyOf m c = .kill := if_pos hkill
    rw [if_pos ⟨hcanon, (his _ (.inl rfl)).mpr hkill⟩] at hrun
    rw [pressed, counted, echoedKey, hkey]
    exact .next hrun rfl h fun s' hs' => does_kill hs' hA hline
  rw [if_neg fun hi => hkill ((his _ (.inl rfl)).mp hi.2)] at hrun
  by_cases herase : m.Special VERASE c
  · have hkey : keyOf m c = .erase := (if_neg hkill).trans (if_pos herase)
    rw [if_pos ⟨hcanon, (his _ (.inr (.inl rfl))).mpr herase⟩] at hrun
    rw [pressed, counted, echoedKey, hkey]
    cases line using List.reverseRecOn with
    | nil =>
      rw [if_pos ((h.atStart_iff hA hline).mpr rfl)] at hrun
      have hout : out ++ (if m.L ECHO then
          ([] : List (BitVec 8)).getLast?.toList.flatMap Cooked.rubOut else []) = out := by simp
      rw [hout]
      exact .next hrun rfl h fun s' hs' => does_top hs'
    | append_singleton l x =>
      have hstart : ¬ Cooked.AtStart (s.tty t) := fun hstart => by
        have hnil := (h.atStart_iff hA hline).mp hstart
        simp at hnil
      rw [if_neg hstart] at hrun
      rw [← List.append_assoc] at h
      refine does_erase h false hrun fun s' hs' => ?_
      rw [List.dropLast_concat, List.getLast?_concat, Option.toList_some, List.flatMap_singleton]
      exact does_top hs'
  rw [if_neg fun hi => herase ((his _ (.inr (.inl rfl))).mp hi.2)] at hrun
  have hignored : keyOf m c = .ignored → (∀ s', Holds t m [] (A ++ line) data out s' →
      Holds t m [] (pressed m A line c) (counted m data c)
        (out ++ if m.L ECHO then echoedKey m line c else []) s') := by
    intro hkey s' hs'
    rw [pressed, counted, echoedKey, hkey]
    rwa [ite_self, List.append_nil]
  by_cases hstop : m.I IXON ∧ m.Special VSTOP c
  · have hkey : keyOf m c = .ignored :=
      (if_neg hkill).trans ((if_neg herase).trans (if_pos ⟨hstop.1, .inl hstop.2⟩))
    have hconsult : m.Consults VSTOP := .inr (.inr (.inr (.inl ⟨hstop.1, .inl rfl⟩)))
    rw [if_pos ⟨hstop.1, (his _ hconsult).mpr hstop.2⟩] at hrun
    refine .next hrun List.getLast?_concat (h.stop true) fun s' hs' => ?_
    exact (does_top hs').mono (hignored hkey)
  have hnotStop : ¬ (m.I IXON ∧ m.Is c VSTOP) := fun hi =>
    hstop ⟨hi.1, (his _ (.inr (.inr (.inr (.inl ⟨hi.1, .inl rfl⟩))))).mp hi.2⟩
  rw [if_neg hnotStop] at hrun
  by_cases hstart : m.I IXON ∧ m.Special VSTART c
  · have hkey : keyOf m c = .ignored :=
      (if_neg hkill).trans ((if_neg herase).trans (if_pos ⟨hstart.1, .inr hstart.2⟩))
    have hconsult : m.Consults VSTART := .inr (.inr (.inr (.inl ⟨hstart.1, .inr rfl⟩)))
    rw [if_pos ⟨hstart.1, (his _ hconsult).mpr hstart.2⟩] at hrun
    refine .next hrun List.getLast?_concat (h.stop false) fun s' hs' => ?_
    exact (does_top hs').mono (hignored hkey)
  have hnotStart : ¬ (m.I IXON ∧ m.Is c VSTART) := fun hi =>
    hstart ⟨hi.1, (his _ (.inr (.inr (.inr (.inl ⟨hi.1, .inr rfl⟩))))).mp hi.2⟩
  rw [if_neg hnotStart] at hrun
  have hflow : ¬ (m.I IXON ∧ (m.Special VSTOP c ∨ m.Special VSTART c)) := fun hi =>
    hi.2.elim (fun h => hstop ⟨hi.1, h⟩) fun h => hstart ⟨hi.1, h⟩
  have hsignal : (m.L ISIG ∧ (m.Is c VINTR ∨ m.Is c VQUIT ∨ m.Is c VSUSP)) ↔
      (m.L ISIG ∧ (m.Special VINTR c ∨ m.Special VQUIT c ∨ m.Special VSUSP c)) := by
    refine and_congr_right fun hsig => ?_
    have hconsult : ∀ i, i = VINTR ∨ i = VQUIT ∨ i = VSUSP → m.Consults i := fun i hi =>
      .inr (.inr (.inr (.inr ⟨hsig, hi⟩)))
    exact or_congr (his _ (hconsult _ (.inl rfl))) (or_congr (his _ (hconsult _ (.inr (.inl rfl))))
      (his _ (hconsult _ (.inr (.inr rfl)))))
  by_cases hsig : m.L ISIG ∧ (m.Special VINTR c ∨ m.Special VQUIT c ∨ m.Special VSUSP c)
  · have hkey : keyOf m c = .ignored :=
      (if_neg hkill).trans ((if_neg herase).trans ((if_neg hflow).trans (if_pos hsig)))
    rw [if_pos (hsignal.mpr hsig)] at hrun
    exact .next hrun rfl h fun s' hs' => (does_top hs').mono (hignored hkey)
  rw [if_neg fun hi => hsig (hsignal.mp hi)] at hrun
  have hkey : keyOf m c = if m.Special VEOF c then .eof
      else if c = 10 then .newline c else .byte c :=
    (if_neg hkill).trans ((if_neg herase).trans ((if_neg hflow).trans (if_neg hsig)))
  have heof : m.Is c VEOF ↔ m.Special VEOF c := his _ (.inr (.inr (.inl rfl)))
  by_cases hdelim : m.Delim c
  · -- a line ends, and is counted
    rw [if_pos hdelim] at hrun
    have hput := does_put hroom hrun h.count
    rw [pressed, counted, echoedKey, hkey]
    by_cases hmark : m.Special VEOF c
    · simp only [if_pos hmark]
      exact hput
    · have hten : c = 10 := hdelim.resolve_right fun hi => hmark (heof.mp hi)
      simp only [if_neg hmark, if_pos hten]
      exact hput
  · rw [if_neg hdelim] at hrun
    have hput := does_put hroom hrun h
    have hmark : ¬ m.Special VEOF c := fun hi => hdelim (.inr (heof.mpr hi))
    have hten : c ≠ 10 := fun hi => hdelim (.inl hi)
    rw [pressed, counted, echoedKey, hkey, if_neg hmark, if_neg hten]
    exact hput

/-! ### One byte -/

omit [DecidableEq T] in
/-- The code's echo of a sane key. -/
theorem echoedKey_eq (hs : Sane K m line b) (hc : c ∈ mappedIn m b) (hecho : m.L ECHO)
    (hprinted : ∀ x ∈ line, x.toNat < 128) (hline : ∀ x ∈ line, ¬ m.Delim x) :
    echoedKey m line c = echoKey m line c := by
  have hechoed : Cooked.echoed m c = echoOf m c := by
    have hlt := hs.echo c hc hecho
    have hint : c.toInt = c.toNat := BitVec.toInt_eq_toNat_of_lt (by omega)
    have hiff : c.toInt < 32 ↔ c.toNat < 32 := by omega
    rw [Cooked.echoed, echoOf, if_congr hiff rfl rfl]
  have hrub : ∀ x ∈ line, (¬ m.L ECHOCTL → 32 ≤ x.toNat) → Cooked.rubOut x = rubOf m x := by
    intro x hx hshown
    have hlt := hprinted x hx
    have hten : x ≠ 10 := fun hten => hline x hx (.inl hten)
    have hint : x.toInt = x.toNat := BitVec.toInt_eq_toNat_of_lt (by omega)
    rw [Cooked.rubOut, rubOf, echoOf, if_neg hten]
    by_cases hctl : x.toNat < 32
    · have hechoctl : m.L ECHOCTL := by
        by_contra hno
        have hge := hshown hno
        omega
      rw [if_pos (by omega), if_pos hctl, if_pos hechoctl]
      rfl
    · rw [if_neg (by omega), if_neg hctl]
      rfl
  rw [echoedKey, echoKey]
  cases hkey : keyOf m c with
  | ignored => rfl
  | erase =>
    cases hlast : line.getLast? with
    | none => rfl
    | some x =>
      have hx : x ∈ line := List.mem_of_getLast? hlast
      simp only [Option.toList_some, List.flatMap_singleton]
      exact hrub x hx fun hctl => (hs.erase c hc hecho hctl).1 hkey x hlast
  | kill =>
    simp only
    rw [List.flatMap_def, List.flatMap_def]
    congr 1
    refine List.map_congr_left fun x hx => ?_
    have hx' : x ∈ line := List.mem_reverse.mp hx
    exact hrub x hx' fun hctl => (hs.erase c hc hecho hctl).2 hkey x hx'
  | byte x => exact hechoed
  | newline x => exact hechoed
  | eof => exact hechoed

omit [DecidableEq T] in
/-- The code's translation of a sane byte. -/
theorem translate_eq (hs : Sane K m line b) : Cooked.translate K m b = mappedIn m b := by
  have hcrnl : Cooked.translate K m b =
      (crnl m b).map fun c => if m.I IUCLC then K.lower c else c := rfl
  rw [hcrnl, mappedIn]
  cases hc : crnl m b with
  | none => rfl
  | some c =>
    rw [Option.map_some, Option.map_some]
    by_cases hlower : m.I IUCLC
    · rw [if_pos hlower, if_pos hlower, hs.lower c hc hlower]
    · rw [if_neg hlower, if_neg hlower]

/-- `copy_to_cooked` for a byte that has come in. -/
theorem does_key (hcanon : m.L ICANON) (h : Holds t m [] (A ++ line) data out s)
    (hA : Ended m A) (hline : ∀ x ∈ line, ¬ m.Delim x)
    (hprinted : m.L ECHO → ∀ x ∈ line, x.toNat < 128)
    (hroom : (A ++ line).length < 1023) (hs : Sane K m line b) :
    Does K t (s.modifyRead t (·.putch b)) .top (match mappedIn m b with
      | none => Holds t m [] (A ++ line) data out
      | some c => Holds t m [] (pressed m A line c) (counted m data c)
          (out ++ if m.L ECHO then echoKey m line c else [])) := by
  have htty : (s.modifyRead t (·.putch b)).tty t =
      { s.tty t with readQ := (s.tty t).readQ.putch b } := Ttys.modify_tty_self _ _ _
  have hfull : ¬ (s.tty t).readQ.ring.Full := by
    rw [RingBuffer.full_iff, ← RingBuffer.length_contents, h.read]
    exact (by decide)
  have hread : Holds t m [b] (A ++ line) data out (s.modifyRead t (·.putch b)) := by
    refine ⟨?_, ?_, ?_, ?_, ?_⟩
    · rw [htty, h.termios]
    · rw [htty, TtyQueue.contents_putch b hfull, h.read]
      rfl
    · rw [htty, h.secondary]
    · rw [htty, h.data]
    · rw [htty, h.put]
  have hempty : ¬ ((s.modifyRead t (·.putch b)).tty t).readQ.ring.Empty := fun hempty => by
    have hnil := RingBuffer.empty_iff_contents.mp hempty
    rw [hread.read] at hnil
    cases hnil
  refine .next (if_neg hempty) rfl hread fun s₁ hs₁ => ?_
  refine .next (if_neg (hs₁.not_full hroom)) rfl hs₁ fun s₂ hs₂ => ?_
  obtain ⟨hfront, hs₃⟩ := hs₂.take
  refine .next (by rw [Cooked.run, hfront]) rfl hs₃ fun s₄ hs₄ => ?_
  have htrans : Cooked.translate K (s₄.tty t).termios b = mappedIn m b := by
    rw [hs₄.termios, translate_eq hs]
  cases hmap : mappedIn m b with
  | none =>
    rw [hmap] at htrans
    have hrun : (Cooked.got b).run K s₄ t = (s₄, [.cooked t .top]) := by rw [Cooked.run, htrans]
    exact .next hrun rfl hs₄ fun s₅ hs₅ => does_top hs₅
  | some c =>
    rw [hmap] at htrans
    have hrun : (Cooked.got b).run K s₄ t = Cooked.dispatch K s₄ t c := by rw [Cooked.run, htrans]
    have hdispatch := does_dispatch hcanon hs₄ hA hline hroom (hs.special c hmap) hrun
    refine hdispatch.mono fun s' hs' => ?_
    dsimp only
    by_cases hecho : m.L ECHO
    · rw [if_pos hecho, ← echoedKey_eq hs hmap hecho (hprinted hecho) hline]
      rwa [if_pos hecho] at hs'
    · rw [if_neg hecho] at hs' ⊢
      exact hs'

/-! ### The line editor -/

/-- What a key is, by its character. -/
theorem keyOf_cases (m : Termios) (c : BitVec 8) :
    (keyOf m c = .ignored ∨ keyOf m c = .erase ∨ keyOf m c = .kill) ∨
    (keyOf m c = .eof ∧ m.Special VEOF c) ∨
    (¬ m.Special VEOF c ∧
      ((keyOf m c = .newline c ∧ c = 10) ∨ (keyOf m c = .byte c ∧ c ≠ 10))) := by
  rw [keyOf]
  split
  case isTrue => exact .inl (.inr (.inr rfl))
  split
  case isTrue => exact .inl (.inr (.inl rfl))
  split
  case isTrue => exact .inl (.inl rfl)
  split
  case isTrue => exact .inl (.inl rfl)
  split
  case isTrue hmark => exact .inr (.inl ⟨rfl, hmark⟩)
  case isFalse hmark =>
    split
    case isTrue hten => exact .inr (.inr ⟨hmark, .inl ⟨rfl, hten⟩⟩)
    case isFalse hten => exact .inr (.inr ⟨hmark, .inr ⟨rfl, hten⟩⟩)

/-- A newline that ends a line. -/
def Newline (m : Termios) (c : BitVec 8) : Prop := c = 10 ∧ ¬ m.Is c VEOF

/-- The `EOF` character in the queue. -/
def mark (m : Termios) : BitVec 8 := m.cc VEOF

/-- The lines of the editor, where the bytes that are echoed are in the table of `tolower`. -/
structure Kept (m : Termios) (e : Editor (BitVec 8)) : Prop where
  tidy : e.Tidy (fun x => ¬ m.Delim x) (Newline m)
  marked : ∀ l ∈ e.lines, l.eof = true → m.Is (mark m) VEOF
  printed : m.L ECHO → ∀ x ∈ e.line, x.toNat < 128

theorem Ended.drop (h : Ended m A) (k : ℕ) : Ended m (A.drop k) := by
  obtain rfl | ⟨front, c, rfl, hc⟩ := h
  · exact .inl List.drop_nil
  · by_cases hk : k ≤ front.length
    · exact .inr ⟨front.drop k, c, List.drop_append_of_le_length hk, hc⟩
    · left
      rw [List.drop_eq_nil_of_le]
      rw [List.length_append, List.length_singleton]
      omega

namespace Kept

variable {e e' : Editor (BitVec 8)}

theorem ended (h : Kept m e) : Ended m (e.finished (mark m)) := by
  obtain hnil | ⟨front, c, heq, hc | ⟨rfl, l, hl, heof⟩⟩ := h.tidy.finished_end (mark m)
  · exact .inl hnil
  · exact .inr ⟨front, c, heq, .inl hc.1⟩
  · exact .inr ⟨front, mark m, heq, .inr (h.marked l hl heof)⟩

theorem read (h : Kept m e) {n : ℕ} {r : List (BitVec 8)} (hread : e.read n = some (r, e')) :
    Kept m e' := by
  obtain ⟨l, ls, hlines, -, hline, -⟩ := Editor.finished_read (mark m) hread
  refine ⟨h.tidy.read hread, fun l' hl' heof => ?_, ?_⟩
  · rw [Editor.read, hlines] at hread
    obtain ⟨-, rfl⟩ := Prod.mk.inj (Option.some.inj hread)
    obtain hl' | hl' := List.mem_append.mp hl'
    · have hrest : l.rest n = some l' := Option.mem_toList.mp hl'
      rw [Line.rest] at hrest
      split at hrest
      case isTrue => cases hrest
      case isFalse =>
        obtain rfl := Option.some.inj hrest
        exact h.marked l (hlines ▸ List.mem_cons_self) heof
    · exact h.marked l' (hlines ▸ List.mem_cons_of_mem l hl') heof
  · rw [hline]
    exact h.printed

omit [DecidableEq T] in
/-- A sane key keeps the lines. -/
theorem press (h : Kept m e) (hs : Sane K m e.line b) (hc : c ∈ mappedIn m b) :
    Kept m (e.press (keyOf m c)) := by
  have heof : m.Is c VEOF ↔ m.Special VEOF c := is_iff (hs.special c hc) (.inr (.inr (.inl rfl)))
  obtain (hkey | hkey | hkey) | ⟨hkey, hmark⟩ | ⟨hmark, ⟨hkey, hten⟩ | ⟨hkey, hten⟩⟩ :=
    keyOf_cases m c
  · rw [hkey]
    exact h
  · rw [hkey]
    exact ⟨h.tidy.press trivial, h.marked, fun hecho x hx =>
      h.printed hecho x (List.dropLast_subset e.line hx)⟩
  · rw [hkey]
    exact ⟨h.tidy.press trivial, h.marked, fun _ x hx => absurd hx List.not_mem_nil⟩
  · rw [hkey]
    refine ⟨h.tidy.press trivial, fun l hl hleof => ?_, fun _ x hx => absurd hx List.not_mem_nil⟩
    have his := heof.mpr hmark
    rwa [hmark.2] at his
  · rw [hkey]
    have hnot : ¬ m.Is c VEOF := fun his => hmark (heof.mp his)
    refine ⟨h.tidy.press ⟨hten, hnot⟩, fun l hl hleof => ?_,
      fun _ x hx => absurd hx List.not_mem_nil⟩
    obtain hl | hl := List.mem_append.mp hl
    · exact h.marked l hl hleof
    · rw [List.mem_singleton.mp hl] at hleof
      cases hleof
  · rw [hkey]
    have hnot : ¬ m.Is c VEOF := fun his => hmark (heof.mp his)
    refine ⟨h.tidy.press (not_or.mpr ⟨hten, hnot⟩), h.marked, fun hecho x hx => ?_⟩
    obtain hx | hx := List.mem_append.mp hx
    · exact h.printed hecho x hx
    · rw [List.mem_singleton.mp hx]
      exact hs.echo c hc hecho

end Kept

/-! ### The reader -/

/-- What is in the secondary queue when `k` elements of the finished lines are taken. -/
def left (m : Termios) (e : Editor (BitVec 8)) (k : ℕ) : List (BitVec 8) :=
  (e.finished (mark m)).drop k ++ e.line

/-- How far a call of `tty_read` is, if it has taken `k` elements of the first line. -/
def Reading.At (m : Termios) (lines : List (Line (BitVec 8))) (k : ℕ) (x : Reading) : Prop :=
  match x.pc with
  | .outer | .asleep => k = 0 ∧ x.buf = [] ∧ x.nr = x.size
  | .test => k = 0 ∧ x.buf = [] ∧ x.nr = x.size ∧ 0 < x.nr
  | .take => ∃ l ls, lines = l :: ls ∧ k < (l.chars (mark m)).length ∧ k = x.buf.length ∧
      x.buf = l.bytes.take k ∧ x.nr + k = x.size ∧ 0 < x.nr
  | .more c => ∃ l ls, lines = l :: ls ∧ k ≤ l.bytes.length ∧ k = x.buf.length + 1 ∧
      x.buf ++ [c] = l.bytes.take k ∧ x.nr + x.buf.length = x.size ∧ 0 < x.nr ∧
      ((¬ m.Delim c ∧ k < (l.chars (mark m)).length) ∨
        (c = 10 ∧ k = l.bytes.length ∧ l.eof = false))
  | .done => ∃ l ls, lines = l :: ls ∧ k ≤ (l.chars (mark m)).length ∧
      x.buf = l.bytes.take x.size ∧ (k = x.size ∨ (k = (l.chars (mark m)).length ∧ k ≤ x.size))

/-- The same, where there may be no call. -/
def ReaderAt (m : Termios) (lines : List (Line (BitVec 8))) (k : ℕ) : Option Reading → Prop
  | none => k = 0
  | some x => x.At m lines k

/-- The terminal follows the line editor. -/
structure Follows (t : T) (m : Termios) (s : Typing T) (k : ℕ) : Prop where
  canon : m.L ICANON
  kept : Kept m s.ref.editor
  holds : Holds t m [] (left m s.ref.editor k)
    (BitVec.ofNat 32 ((left m s.ref.editor k).countP (m.Delim ·))) s.ref.out s.ttys
  reader : ReaderAt m s.ref.editor.lines k s.reader
  same : s.expected = s.read.map some

section

variable {s s' : Typing T} {k : ℕ} {x : Reading} {lines ls : List (Line (BitVec 8))}
  {l : Line (BitVec 8)} {e : Editor (BitVec 8)}

/-- The reader is in the first line. -/
theorem Reading.At.head (h : x.At m lines k) (hk : k ≠ 0) :
    ∃ l ls, lines = l :: ls ∧ k ≤ (l.chars (mark m)).length := by
  have hbytes : ∀ l : Line (BitVec 8), l.bytes.length ≤ (l.chars (mark m)).length := fun l => by
    rw [Line.chars, List.length_append]
    exact Nat.le_add_right _ _
  rw [Reading.At] at h
  cases hpc : x.pc with
  | outer =>
    rw [hpc] at h
    exact absurd h.1 hk
  | asleep =>
    rw [hpc] at h
    exact absurd h.1 hk
  | test =>
    rw [hpc] at h
    exact absurd h.1 hk
  | take =>
    rw [hpc] at h
    obtain ⟨l, ls, heq, hlt, -⟩ := h
    exact ⟨l, ls, heq, hlt.le⟩
  | more c =>
    rw [hpc] at h
    obtain ⟨l, ls, heq, hle, -⟩ := h
    exact ⟨l, ls, heq, hle.trans (hbytes l)⟩
  | done =>
    rw [hpc] at h
    obtain ⟨l, ls, heq, hle, -⟩ := h
    exact ⟨l, ls, heq, hle⟩

/-- More lines come behind. -/
theorem Reading.At.append (h : x.At m lines k) (ls : List (Line (BitVec 8))) :
    x.At m (lines ++ ls) k := by
  rw [Reading.At] at h ⊢
  cases hpc : x.pc with
  | outer =>
    rw [hpc] at h
    exact h
  | asleep =>
    rw [hpc] at h
    exact h
  | test =>
    rw [hpc] at h
    exact h
  | take =>
    rw [hpc] at h
    obtain ⟨l, ls', rfl, h⟩ := h
    exact ⟨l, ls' ++ ls, rfl, h⟩
  | more c =>
    rw [hpc] at h
    obtain ⟨l, ls', rfl, h⟩ := h
    exact ⟨l, ls' ++ ls, rfl, h⟩
  | done =>
    rw [hpc] at h
    obtain ⟨l, ls', rfl, h⟩ := h
    exact ⟨l, ls' ++ ls, rfl, h⟩

theorem ReaderAt.append {o : Option Reading} (h : ReaderAt m lines k o)
    (ls : List (Line (BitVec 8))) : ReaderAt m (lines ++ ls) k o := by
  cases o with
  | none => exact h
  | some x => exact Reading.At.append h ls

theorem ReaderAt.press {o : Option Reading} (h : ReaderAt m e.lines k o)
    (key : Key (BitVec 8)) : ReaderAt m (e.press key).lines k o := by
  cases key with
  | ignored | erase | kill | byte => exact h
  | newline | eof => exact h.append _

theorem ReaderAt.le {o : Option Reading} (h : ReaderAt m e.lines k o) :
    k ≤ (e.finished (mark m)).length := by
  by_cases hk : k = 0
  · omega
  · cases o with
    | none => exact absurd h hk
    | some x =>
      obtain ⟨l, ls, hlines, hle⟩ := Reading.At.head h hk
      rw [Editor.finished, hlines, List.flatMap_cons, List.length_append]
      omega

/-- What a key does to the queue. -/
theorem pressed_eq (hk : k ≤ (e.finished (mark m)).length) :
    pressed m ((e.finished (mark m)).drop k) e.line c = left m (e.press (keyOf m c)) k := by
  have hfinish : ∀ l : Line (BitVec 8),
      left m ⟨e.lines ++ [l], []⟩ k = (e.finished (mark m)).drop k ++ l.chars (mark m) := by
    intro l
    rw [left, Editor.finished, List.flatMap_append, List.flatMap_singleton, List.append_nil]
    exact List.drop_append_of_le_length hk
  rw [pressed]
  obtain (hkey | hkey | hkey) | ⟨hkey, hmark⟩ | ⟨hmark, ⟨hkey, hten⟩ | ⟨hkey, hten⟩⟩ :=
    keyOf_cases m c
  · rw [hkey]
    rfl
  · rw [hkey]
    rfl
  · rw [hkey]
    exact (List.append_nil _).symm
  · rw [hkey]
    dsimp only
    rw [Editor.press, hfinish, hmark.2, List.append_assoc]
    rfl
  · rw [hkey]
    dsimp only
    rw [Editor.press, hfinish, List.append_assoc, Line.chars, if_neg Bool.false_ne_true,
      List.append_nil]
  · rw [hkey]
    exact List.append_assoc _ _ _

/-- What a key does to the line count. -/
theorem counted_eq (hline : ∀ x ∈ line, ¬ m.Delim x)
    (hc : 128 ≤ c.toNat → ∀ i, m.Consults i → ¬ m.Special i c) :
    counted m (BitVec.ofNat 32 ((A ++ line).countP (m.Delim ·))) c =
      BitVec.ofNat 32 ((pressed m A line c).countP (m.Delim ·)) := by
  have heof : m.Is c VEOF ↔ m.Special VEOF c := is_iff hc (.inr (.inr (.inl rfl)))
  have hzero : ∀ l : List (BitVec 8), (∀ x ∈ l, ¬ m.Delim x) → l.countP (m.Delim ·) = 0 := by
    intro l hl
    rw [List.countP_eq_zero]
    exact fun x hx => by simpa using hl x hx
  have hput : (A ++ line ++ [c]).countP (m.Delim ·) =
      (A ++ line).countP (m.Delim ·) + if m.Delim c then 1 else 0 := by
    generalize A ++ line = l
    rw [List.countP_append, List.countP_singleton]
    simp
  rw [pressed, counted]
  obtain (hkey | hkey | hkey) | ⟨hkey, hmark⟩ | ⟨hmark, ⟨hkey, hten⟩ | ⟨hkey, hten⟩⟩ :=
    keyOf_cases m c
  · rw [hkey]
  · rw [hkey]
    dsimp only
    rw [List.countP_append, List.countP_append, hzero line hline,
      hzero _ fun x hx => hline x (List.dropLast_subset line hx)]
  · rw [hkey]
    dsimp only
    rw [List.countP_append, hzero line hline, Nat.add_zero]
  · rw [hkey]
    dsimp only
    rw [hput, if_pos (.inr (heof.mpr hmark)), BitVec.ofNat_add]
    rfl
  · rw [hkey]
    dsimp only
    rw [hput, if_pos (.inl hten), BitVec.ofNat_add]
    rfl
  · have hnot : ¬ m.Delim c := not_or.mpr ⟨hten, fun his => hmark (heof.mp his)⟩
    rw [hkey]
    dsimp only
    rw [hput, if_neg hnot, Nat.add_zero]

namespace Follows

/-- A byte comes in. -/
theorem key (h : Follows t m s k) (hroom : ¬ (s.ttys.tty t).secondary.ring.Full)
    (hs : Sane K m s.ref.editor.line b) : Does K t (s.ttys.modifyRead t (·.putch b)) .top
      fun ttys => Follows t m { s with ttys := ttys, ref := s.ref.type m b } k := by
  have hlen : (left m s.ref.editor k).length < 1023 := by
    rw [RingBuffer.full_iff, ← RingBuffer.length_contents, h.holds.secondary] at hroom
    have hle := (s.ttys.tty t).secondary.ring.count_le
    rw [← RingBuffer.length_contents, h.holds.secondary] at hle
    omega
  refine (does_key h.canon h.holds (h.kept.ended.drop k) h.kept.tidy.line h.kept.printed hlen
    hs).mono fun ttys httys => ?_
  cases hmap : mappedIn m b with
  | none =>
    rw [hmap] at httys
    rw [Reference.type, hmap]
    exact ⟨h.canon, h.kept, httys, h.reader, h.same⟩
  | some c =>
    rw [hmap] at httys
    dsimp only at httys
    rw [left, counted_eq h.kept.tidy.line (hs.special c hmap), pressed_eq h.reader.le] at httys
    rw [Reference.type, hmap]
    refine ⟨h.canon, h.kept.press hs hmap, httys, ?_, h.same⟩
    exact h.reader.press (keyOf m c)

omit [DecidableEq T] in
/-- A call begins. -/
theorem read (h : Follows t m s k) (hnone : s.reader = none) (n : ℕ) :
    Follows t m { s with reader := some ⟨n, n, Read.minimum m n, [], .outer⟩ } k := by
  have hk := h.reader
  rw [hnone] at hk
  exact ⟨h.canon, h.kept, h.holds, ⟨hk, rfl, rfl⟩, h.same⟩

omit [DecidableEq T] in
theorem others (h : Follows t m s k) {ttys : Ttys T} (htook : Took t s.ttys ttys) :
    Follows t m { s with ttys := ttys } k :=
  ⟨h.canon, h.kept, h.holds.took htook, h.reader, h.same⟩

omit [DecidableEq T] in
/-- A call goes on and takes nothing. -/
theorem move (h : Follows t m s k) {x' : Reading} (hx : x'.At m s.ref.editor.lines k) :
    Follows t m { s with reader := some x' } k := ⟨h.canon, h.kept, h.holds, hx, h.same⟩

omit [DecidableEq T] in
/-- A call is cut short. -/
theorem cut (h : Follows t m s 0) (hbuf : x.buf = []) (hpc : x.pc ≠ .done) :
    Follows t m (s.returned x) 0 := by
  have heq : s.returned x = { s with
      reader := none, read := s.read ++ [x.buf], expected := s.expected ++ [some []] } := by
    rw [Typing.returned]
    cases hx : x.pc with
    | done => exact absurd hx hpc
    | outer | test | asleep | take | more c => rfl
  rw [heq]
  refine ⟨h.canon, h.kept, h.holds, rfl, ?_⟩
  rw [h.same, hbuf, List.map_append]
  rfl

omit [DecidableEq T] in
/-- A call has read a line, or part of one. -/
theorem done (h : Follows t m s k) (hsome : s.reader = some x) (hpc : x.pc = .done) :
    Follows t m (s.returned x) 0 := by
  have hat : x.At m s.ref.editor.lines k := by
    have hreader := h.reader
    rwa [hsome] at hreader
  rw [Reading.At, hpc] at hat
  obtain ⟨l, ls, hlines, hle, hbuf, hk⟩ := hat
  have hread : s.ref.editor.read x.size = some (l.bytes.take x.size,
      { s.ref.editor with lines := (l.rest x.size).toList ++ ls }) := by
    rw [Editor.read, hlines]
  have heq : s.returned x = { s with
      reader := none, read := s.read ++ [x.buf],
      ref := { s.ref with
        editor := { s.ref.editor with lines := (l.rest x.size).toList ++ ls } }
      expected := s.expected ++ [some (l.bytes.take x.size)] } := by
    rw [Typing.returned, hpc]
    dsimp only
    rw [hread]
  -- the call took what the line editor takes
  have hdrop : (l.chars (mark m)).drop x.size = (l.chars (mark m)).drop k := by
    obtain rfl | ⟨rfl, hsize⟩ := hk
    · rfl
    · rw [List.drop_eq_nil_of_le hsize, List.drop_length]
  have hleft : left m { s.ref.editor with lines := (l.rest x.size).toList ++ ls } 0 =
      left m s.ref.editor k := by
    rw [left, left, List.drop_zero, Editor.finished, Editor.finished, hlines,
      List.flatMap_append, Line.chars_rest, List.flatMap_cons, List.drop_append_of_le_length hle,
      hdrop]
  rw [heq]
  refine ⟨h.canon, h.kept.read hread, ?_, rfl, ?_⟩
  · dsimp only
    rw [hleft]
    exact h.holds
  · rw [h.same, hbuf, List.map_append]
    rfl

/-- A call takes a character. -/
theorem take (h : Follows t m s k) (hsome : s.reader = some x) (hpc : x.pc = .take) :
    let y := s.ttys.tty t
    Follows t m { s with
      ttys := s.ttys.modifySecondary t (Read.takeChar y.termios)
      reader := some { x with
        pc := if y.termios.Is y.secondary.ring.front VEOF ∧ y.termios.L ICANON then .done
          else .more y.secondary.ring.front } } (k + 1) := by
  have hat : x.At m s.ref.editor.lines k := by
    have hreader := h.reader
    rwa [hsome] at hreader
  rw [Reading.At, hpc] at hat
  obtain ⟨l, ls, hlines, hlt, hk, hbuf, hsize, hnr⟩ := hat
  obtain ⟨c, tail, hc⟩ := List.exists_cons_of_ne_nil (List.drop_eq_nil_iff.not.mpr
    (Nat.not_le_of_lt hlt))
  have hsucc : (l.chars (mark m)).drop (k + 1) = tail := by
    rw [← List.drop_drop, hc, List.drop_one, List.tail_cons]
  have hleft : left m s.ref.editor k = c :: left m s.ref.editor (k + 1) := by
    rw [left, left, Editor.finished, hlines, List.flatMap_cons,
      List.drop_append_of_le_length hlt.le, List.drop_append_of_le_length hlt, hc, hsucc]
    rfl
  have hholds := h.holds
  rw [hleft] at hholds
  obtain ⟨hfront, htaken⟩ := hholds.getch
  have hcount : (if m.Delim c then BitVec.ofNat 32
      ((c :: left m s.ref.editor (k + 1)).countP (m.Delim ·)) - 1 else BitVec.ofNat 32
        ((c :: left m s.ref.editor (k + 1)).countP (m.Delim ·))) =
      BitVec.ofNat 32 ((left m s.ref.editor (k + 1)).countP (m.Delim ·)) := by
    rw [List.countP_cons]
    by_cases hdelim : m.Delim c
    · rw [if_pos hdelim, if_pos (decide_eq_true hdelim), BitVec.ofNat_add]
      exact BitVec.add_sub_cancel _ _
    · rw [if_neg hdelim, if_neg (by simpa using hdelim), Nat.add_zero]
  rw [hcount] at htaken
  dsimp only
  rw [h.holds.termios, hfront]
  refine ⟨h.canon, h.kept, htaken, ?_, h.same⟩
  have htidy : l.Tidy (fun x => ¬ m.Delim x) (Newline m) :=
    h.kept.tidy.lines l (hlines ▸ List.mem_cons_self)
  obtain ⟨hin, htake, hnext⟩ | ⟨hlast, heof, rfl⟩ := htidy.next hc
  · -- a character of the line
    have hnot : ¬ (m.Is c VEOF ∧ m.L ICANON) := fun his =>
      hnext.elim (fun hord => hord.1 (.inr his.1)) fun hnl => hnl.1.2 his.1
    rw [if_neg hnot]
    refine ⟨l, ls, hlines, hin, by rw [hk], ?_, by dsimp only; omega, hnr, ?_⟩
    · rw [htake, ← hbuf]
    · obtain hord | ⟨hnl, hend, heof⟩ := hnext
      · exact .inl hord
      · exact .inr ⟨hnl.1, hend, heof⟩
  · -- the end of a line without newline
    have his : m.Is (mark m) VEOF := h.kept.marked l (hlines ▸ List.mem_cons_self) heof
    have hlen : (l.chars (mark m)).length = l.bytes.length + 1 := by
      rw [Line.chars, heof, if_pos rfl, List.length_append, List.length_singleton]
    rw [if_pos ⟨his, h.canon⟩]
    refine ⟨l, ls, hlines, hlt, ?_, .inr ⟨by omega, by dsimp only; omega⟩⟩
    dsimp only
    rw [hbuf, hlast, List.take_length, List.take_of_length_le (by omega)]

omit [DecidableEq T] in
/-- A call stores a character. -/
theorem more (h : Follows t m s k) (hsome : s.reader = some x) (hpc : x.pc = .more c) :
    let y := s.ttys.tty t
    Follows t m { s with
      reader := some { x with
        nr := x.nr - 1
        buf := x.buf ++ [c]
        pc := if x.nr ≤ 1 ∨ (c = 10 ∧ y.termios.L ICANON) ∨ y.secondary.ring.Empty then .done
          else .take } } k := by
  have hat : x.At m s.ref.editor.lines k := by
    have hreader := h.reader
    rwa [hsome] at hreader
  rw [Reading.At, hpc] at hat
  obtain ⟨l, ls, hlines, hle, hk, hbuf, hsize, hnr, hnext⟩ := hat
  have hbytes : l.bytes.length ≤ (l.chars (mark m)).length := by
    rw [Line.chars, List.length_append]
    exact Nat.le_add_right _ _
  have hlen : (x.buf ++ [c]).length = k := by
    rw [List.length_append, List.length_singleton, hk]
  dsimp only
  refine h.move ?_
  split
  case isFalse hgo =>
    rw [not_or, not_or, h.holds.termios] at hgo
    obtain ⟨hmany, hten, -⟩ := hgo
    obtain ⟨-, hlt⟩ | ⟨hnl, -⟩ := hnext
    · exact ⟨l, ls, hlines, hlt, hlen.symm, hbuf, by dsimp only; omega, by dsimp only; omega⟩
    · exact absurd ⟨hnl, h.canon⟩ hten
  case isTrue hstop =>
    -- all that is asked for, the newline, or the whole line
    have hall : k = l.bytes.length → (x.buf ++ [c]) = l.bytes.take x.size := fun heq => by
      rw [hbuf, List.take_of_length_le (by omega), List.take_of_length_le (by omega)]
    have hdone : (x.buf ++ [c] = l.bytes.take x.size) ∧
        (k = x.size ∨ (k = (l.chars (mark m)).length ∧ k ≤ x.size)) := by
      obtain hone | ⟨hten, -⟩ | hempty := hstop
      · have hksize : k = x.size := by omega
        exact ⟨hksize ▸ hbuf, .inl hksize⟩
      · obtain ⟨hord, -⟩ | ⟨-, hend, heof⟩ := hnext
        · exact absurd (.inl hten) hord
        · refine ⟨hall hend, .inr ⟨?_, by omega⟩⟩
          rw [Line.chars, heof, if_neg Bool.false_ne_true, List.append_nil, hend]
      · rw [h.holds.empty_iff, left, Editor.finished, hlines, List.flatMap_cons,
          List.append_eq_nil_iff, List.drop_eq_nil_iff, List.length_append] at hempty
        have hend := hempty.1
        exact ⟨hall (by omega), .inr ⟨by omega, by omega⟩⟩
    exact ⟨l, ls, hlines, hle.trans hbytes, hdone⟩

omit [DecidableEq T] in
/-- The lines are counted. -/
theorem waits_iff (h : Follows t m s 0) :
    Read.Waits (s.ttys.tty t) ↔ s.ref.editor.lines = [] := by
  have hempty := h.holds.empty_iff
  have hsecondary := h.holds.secondary
  have hcount := h.holds.data
  have hsplit : left m s.ref.editor 0 =
      s.ref.editor.finished (mark m) ++ s.ref.editor.line := rfl
  have hline : s.ref.editor.line.countP (m.Delim ·) = 0 := by
    rw [List.countP_eq_zero]
    exact fun x hx => by simpa using h.kept.tidy.line x hx
  rw [hsplit, List.countP_append, hline, Nat.add_zero] at hcount
  constructor
  · intro hwaits
    by_contra hne
    -- a finished line ends with a character that is counted
    have hfinished : s.ref.editor.finished (mark m) ≠ [] := by
      obtain ⟨l, ls, hlines⟩ := List.exists_cons_of_ne_nil hne
      have htidy := h.kept.tidy.lines l (hlines ▸ List.mem_cons_self)
      rw [Editor.finished, hlines, List.flatMap_cons]
      exact fun hnil => htidy.chars_ne_nil (List.append_eq_nil_iff.mp hnil).1
    obtain hnil | hzero := hwaits
    · rw [hempty, hsplit, List.append_eq_nil_iff] at hnil
      exact hfinished hnil.1
    · obtain hnil | ⟨front, c, heq, hc⟩ := h.kept.ended
      · exact hfinished hnil
      · have hpos : 0 < (s.ref.editor.finished (mark m)).countP (m.Delim ·) := by
          rw [List.countP_pos_iff]
          exact ⟨c, heq ▸ List.mem_append_right front (List.mem_singleton_self c),
            decide_eq_true hc⟩
        have hlen : (s.ref.editor.finished (mark m)).length ≤ 1023 := by
          have hle := (s.ttys.tty t).secondary.ring.count_le
          rw [← RingBuffer.length_contents, hsecondary, hsplit, List.length_append] at hle
          omega
        have hle := List.countP_le_length (p := (m.Delim ·))
          (l := s.ref.editor.finished (mark m))
        have hnat := congrArg BitVec.toNat (hzero.2.2.symm.trans hcount)
        rw [BitVec.toNat_ofNat, Nat.mod_eq_of_lt (by omega)] at hnat
        exact hpos.ne hnat
  · intro hnil
    refine .inr ⟨h.holds.termios ▸ h.canon, ?_, ?_⟩
    · rw [RingBuffer.full_iff, ← RingBuffer.length_contents, h.holds.read]
      exact (by decide)
    · rw [hcount, Editor.finished, hnil]
      rfl

end Follows

namespace Typing

theorem goOn_of_next {ttys : Ttys T} {frames : List (Frame T)} {nr minimum : ℕ}
    {buf : List (BitVec 8)} {pc : Read} {signal expired : Bool}
    (hrun : x.pc.run K s.ttys t x.nr x.minimum x.buf signal expired = (ttys, frames))
    (hnext : frames.getLast? = some (.read t nr minimum buf pc)) :
    s.goOn K t x signal expired =
      { s with ttys := ttys, reader := some ⟨x.size, nr, minimum, buf, pc⟩ } := by
  rw [goOn, hrun]
  dsimp only
  rw [hnext]

theorem goOn_of_end {signal expired : Bool}
    (hrun : x.pc.run K s.ttys t x.nr x.minimum x.buf signal expired = (s.ttys, [])) :
    s.goOn K t x signal expired = s.returned x := by
  rw [goOn, hrun]
  rfl

end Typing

/-- What is left for a call to do, where a line is there. -/
def Read.fuel (nr : ℕ) : Read → ℕ
  | .done => 1
  | .more _ => 3 * nr
  | .take => 3 * nr + 2
  | .test => 3 * nr + 3
  | .outer => 3 * nr + 4
  | .asleep => 3 * nr + 5

/-- A call with bytes left to read, where it is to take or to store one. -/
theorem Reading.At.nr_pos (h : x.At m lines k) (hpc : x.pc = .take ∨ ∃ c, x.pc = .more c) :
    0 < x.nr := by
  rw [Reading.At] at h
  obtain hpc | ⟨c, hpc⟩ := hpc
  · rw [hpc] at h
    obtain ⟨l, ls, -, -, -, -, -, hpos⟩ := h
    exact hpos
  · rw [hpc] at h
    obtain ⟨l, ls, -, -, -, -, -, hpos, -⟩ := h
    exact hpos

namespace Follows

/-- A call goes on: it ends, or comes nearer to its end if a line is there. -/
theorem go (h : Follows t m s k) (hsome : s.reader = some x) (signal expired : Bool) :
    (∃ k', Follows t m (s.goOn K t x signal expired) k') ∧
      (s.ref.editor.lines ≠ [] → (s.goOn K t x signal expired).reader = none ∨
        ∃ x', (s.goOn K t x signal expired).reader = some x' ∧
          (s.goOn K t x signal expired).ref = s.ref ∧ x'.pc.fuel x'.nr < x.pc.fuel x.nr) := by
  have hat : x.At m s.ref.editor.lines k := by
    have hreader := h.reader
    rwa [hsome] at hreader
  cases hpc : x.pc with
  | outer =>
    have hat' := hat
    rw [Reading.At, hpc] at hat'
    obtain ⟨rfl, hbuf, hnr⟩ := hat'
    by_cases hzero : x.nr = 0
    · rw [Typing.goOn_of_end (by rw [hpc, Read.run, if_pos hzero])]
      refine ⟨⟨0, h.cut hbuf (by rw [hpc]; exact nofun)⟩, fun _ => .inl ?_⟩
      rw [Typing.returned, hpc]
    · rw [Typing.goOn_of_next (by rw [hpc, Read.run, if_neg hzero]) List.getLast?_concat]
      exact ⟨⟨0, h.move ⟨rfl, hbuf, hnr, Nat.pos_of_ne_zero hzero⟩⟩, fun _ =>
        .inr ⟨_, rfl, rfl, Nat.lt_succ_self _⟩⟩
  | asleep =>
    have hat' := hat
    rw [Reading.At, hpc] at hat'
    rw [Typing.goOn_of_next (by rw [hpc, Read.run]) rfl]
    exact ⟨⟨k, h.move hat'⟩, fun _ => .inr ⟨_, rfl, rfl, Nat.lt_succ_self _⟩⟩
  | test =>
    have hat' := hat
    rw [Reading.At, hpc] at hat'
    obtain ⟨rfl, hbuf, hnr, hpos⟩ := hat'
    by_cases hwaits : Read.Waits (s.ttys.tty t)
    · -- there is no line
      have hnil := h.waits_iff.mp hwaits
      by_cases hcut : expired = true ∨ signal = true ∨ Read.HungUp s.ttys (K.kind t)
      · rw [Typing.goOn_of_end (by rw [hpc, Read.run, if_pos hwaits, if_pos hcut])]
        exact ⟨⟨0, h.cut hbuf (by rw [hpc]; exact nofun)⟩, fun hne => absurd hnil hne⟩
      · rw [Typing.goOn_of_next (by rw [hpc, Read.run, if_pos hwaits, if_neg hcut]) rfl]
        exact ⟨⟨0, h.move ⟨rfl, hbuf, hnr⟩⟩, fun hne => absurd hnil hne⟩
    · obtain ⟨l, ls, hlines⟩ := List.exists_cons_of_ne_nil (mt h.waits_iff.mpr hwaits)
      have htidy := h.kept.tidy.lines l (hlines ▸ List.mem_cons_self)
      have hlen : 0 < (l.chars (mark m)).length := List.length_pos_iff.mpr htidy.chars_ne_nil
      rw [Typing.goOn_of_next (by rw [hpc, Read.run, if_neg hwaits]) rfl]
      exact ⟨⟨0, h.move ⟨l, ls, hlines, hlen, by rw [hbuf]; rfl, hbuf, hnr, hpos⟩⟩, fun _ =>
        .inr ⟨_, rfl, rfl, Nat.lt_succ_self _⟩⟩
  | take =>
    rw [Typing.goOn_of_next (by rw [hpc, Read.run]) rfl]
    refine ⟨⟨k + 1, h.take hsome hpc⟩, fun _ => .inr ⟨_, rfl, rfl, ?_⟩⟩
    have hpos := hat.nr_pos (.inl hpc)
    rw [apply_ite (Read.fuel x.nr), Read.fuel, Read.fuel, Read.fuel]
    split
    · omega
    · omega
  | more c =>
    rw [Typing.goOn_of_next (by rw [hpc, Read.run]) rfl]
    refine ⟨⟨k, h.more hsome hpc⟩, fun _ => .inr ⟨_, rfl, rfl, ?_⟩⟩
    have hpos := hat.nr_pos (.inr ⟨c, hpc⟩)
    rw [apply_ite (Read.fuel (x.nr - 1)), Read.fuel, Read.fuel, Read.fuel]
    split
    · omega
    · omega
  | done =>
    have hrun : x.pc.run K s.ttys t x.nr x.minimum x.buf signal expired = (s.ttys, []) := by
      rw [hpc, Read.run, h.holds.termios, if_pos (.inl h.canon)]
    rw [Typing.goOn_of_end hrun]
    refine ⟨⟨0, h.done hsome hpc⟩, fun _ => .inl ?_⟩
    rw [Typing.returned, hpc]
    dsimp only
    split
    · rfl
    · rfl

/-- A call ends if a line is there. -/
theorem finishes (h : Follows t m s k) (hlines : s.ref.editor.lines ≠ []) :
    ∃ s', Steps (fun s s' : Typing T => s.Step K t m (.go false false) s') s s' ∧
      s'.reader = none := by
  cases hsome : s.reader with
  | none => exact ⟨s, .refl, hsome⟩
  | some x =>
    -- by induction on what is left to do
    induction hn : x.pc.fuel x.nr using Nat.strongRecOn generalizing s k x with
    | ind n ih =>
      obtain ⟨⟨k', hk'⟩, hfuel⟩ := h.go (K := K) hsome false false
      have hstep : s.Step K t m (.go false false) (s.goOn K t x false false) := .go hsome
      obtain hnone | ⟨x', hx', href, hlt⟩ := hfuel hlines
      · exact ⟨_, Steps.one hstep, hnone⟩
      · obtain ⟨s', hs', hnone⟩ := ih _ (hn ▸ hlt) hk' (href ▸ hlines) x' hx' rfl
        exact ⟨s', (Steps.one hstep).trans hs', hnone⟩

/-- The start: no line, and nothing is typed. -/
theorem init (h : (typing K t m).init s) : Follows t m s 0 := by
  obtain ⟨hcanon, htermios, hread, hsecondary, hdata, hreader, hnone, href, hexpected⟩ := h
  have hleft : left m s.ref.editor 0 = [] := by
    rw [href]
    rfl
  refine ⟨hcanon, ⟨⟨?_, ?_⟩, ?_, ?_⟩, ⟨htermios, ?_, ?_, ?_, ?_⟩, ?_, ?_⟩
  · exact fun l hl => absurd (href ▸ hl) List.not_mem_nil
  · exact fun x hx => absurd (href ▸ hx) List.not_mem_nil
  · exact fun l hl => absurd (href ▸ hl) List.not_mem_nil
  · exact fun _ x hx => absurd (href ▸ hx) List.not_mem_nil
  · exact RingBuffer.empty_iff_contents.mp hread
  · rw [hleft]
    exact RingBuffer.empty_iff_contents.mp hsecondary
  · rw [hleft, hdata]
    rfl
  · rw [href]
  · rw [hreader]
    rfl
  · rw [hnone, hexpected]
    rfl

theorem step {e : TypingEvent} (h : Follows t m s k) (hcareful : s.Careful K m e)
    (hstep : s.Step K t m e s') : ∃ k', Follows t m s' k' := by
  cases hstep with
  | key hroom hcooks => exact ⟨k, (h.key hroom hcareful).holds _ hcooks⟩
  | read hnone => exact ⟨k, h.read hnone _⟩
  | go hsome => exact (h.go hsome _ _).1
  | others htook => exact ⟨k, h.others htook⟩

theorem reach (h : (typing K t m).Reach (Typing.Careful K m) s) : ∃ k, Follows t m s k :=
  System.Reach.invariant (I := fun s => ∃ k, Follows t m s k) (fun _ hs => ⟨0, init hs⟩)
    (fun _ _ _ ⟨_, hk⟩ hcareful hstep => hk.step hcareful hstep) h

end Follows

/-- In a run of sane bytes every read returns what the line editor gives, the echo is that of the
line editor, `copy_to_cooked` ends for each further such byte if there is room, and a read ends if
there is a line. -/
theorem canonical_input (h : (typing K t m).Reach (Typing.Careful K m) s) :
    s.expected = s.read.map some ∧ (s.ttys.tty t).writeQ.put = s.ref.out ∧
    (∀ b, Sane K m s.ref.editor.line b → ¬ (s.ttys.tty t).secondary.ring.Full →
      ∃ s', s.Step K t m (.key b) s') ∧
    (s.ref.editor.lines ≠ [] → ∃ s',
      Steps (fun s s' : Typing T => s.Step K t m (.go false false) s') s s' ∧
        s'.reader = none) := by
  obtain ⟨k, hk⟩ := Follows.reach h
  refine ⟨hk.same, hk.holds.put, fun b hb hroom => ?_, hk.finishes⟩
  obtain ⟨ttys, httys⟩ := (hk.key hroom hb).ends
  exact ⟨_, .key hroom httys⟩

end

/-! ### Two runs -/

/-- A run of `copy_to_cooked` in which nothing is taken, for so many steps. -/
def cook (K : TtyTable T) (t : T) : ℕ → Ttys T → Cooked → Option (Ttys T)
  | 0, _, _ => none
  | n + 1, s, pc =>
    match pc.run K s t with
    | (s', []) => some s'
    | (s', f :: fs) =>
      match (f :: fs).getLast? with
      | some (.cooked t' pc') => if t' = t then cook K t n s' pc' else none
      | _ => none

theorem Cooks.of_cook {n : ℕ} (h : cook K t n s pc = some s') : Cooks K t s pc s' := by
  induction n generalizing s pc with
  | zero => cases h
  | succ n ih =>
    rw [cook] at h
    split at h
    case h_1 s₁ hrun =>
      obtain rfl := Option.some.inj h
      exact .ends hrun (.refl s₁)
    case h_2 s₁ f fs hrun =>
      split at h
      case h_1 t' pc' hnext =>
        split at h
        case isTrue ht =>
          obtain rfl := ht
          exact .goes hrun hnext (.refl s₁) (ih h)
        case isFalse => cases h
      case h_2 => cases h

namespace Typing

def next (K : TtyTable T) (t : T) (m : Termios) (s : Typing T) : TypingEvent → Option (Typing T)
  | .key b =>
    if (s.ttys.tty t).secondary.ring.Full then none
    else (cook K t 100 (s.ttys.modifyRead t (·.putch b)) .top).map fun ttys =>
      { s with ttys := ttys, ref := s.ref.type m b }
  | .read n =>
    if s.reader.isNone then
      some { s with reader := some ⟨n, n, Read.minimum m n, [], .outer⟩ }
    else none
  | .go signal expired => s.reader.map fun x => s.goOn K t x signal expired
  | .others => some s

theorem step_of_next {s s' : Typing T} {e : TypingEvent} (h : s.next K t m e = some s') :
    s.Step K t m e s' := by
  cases e with
  | key b =>
    rw [next] at h
    split at h
    case isTrue => cases h
    case isFalse hroom =>
      obtain ⟨ttys, httys, rfl⟩ := Option.map_eq_some_iff.mp h
      exact .key hroom (.of_cook httys)
  | read n =>
    rw [next] at h
    split at h
    case isTrue hnone =>
      obtain rfl := Option.some.inj h
      exact .read (Option.isNone_iff_eq_none.mp hnone)
    case isFalse => cases h
  | go signal expired =>
    obtain ⟨x, hx, rfl⟩ := Option.map_eq_some_iff.mp h
    exact .go hx
  | others =>
    obtain rfl := Option.some.inj h
    exact .others (.refl s.ttys)

/-- A serial line with the settings `m`. -/
def quiet (m : Termios) : Typing Unit where
  ttys := ⟨fun _ => ⟨m, false, .ofRing 0 noChars, .ofRing 0 noChars, .ofRing 0 noChars,
    ⟨.normal, 0⟩, []⟩, false⟩
  reader := none
  read := []
  ref := ⟨⟨[], []⟩, []⟩
  expected := []

theorem quiet_init (hm : m.L ICANON) : (typing serialLine () m).init (quiet m) :=
  ⟨hm, rfl, rfl, rfl, rfl, rfl, rfl, rfl, rfl⟩

end Typing

omit [DecidableEq T] in
/-- With `ECHOCTL`, and if capitals are left alone, the bytes under 128 are sane. -/
theorem sane_of_ascii (hcapital : ¬ m.I IUCLC) (hctl : m.L ECHOCTL) (hb : b.toNat < 128)
    (line : List (BitVec 8)) : Sane K m line b := by
  have hmapped : ∀ c ∈ mappedIn m b, c.toNat < 128 := by
    intro c hc
    obtain ⟨x, hx, rfl⟩ := Option.map_eq_some_iff.mp hc
    rw [if_neg hcapital]
    rw [crnl] at hx
    split at hx
    · split at hx
      · obtain rfl := Option.some.inj hx
        decide
      · split at hx
        · cases hx
        · obtain rfl := Option.some.inj hx
          exact hb
    · split at hx
      · obtain rfl := Option.some.inj hx
        decide
      · obtain rfl := Option.some.inj hx
        exact hb
  refine ⟨fun _ _ hi => absurd hi hcapital, fun c hc hge => ?_, fun c hc _ => hmapped c hc,
    fun _ _ _ hno => absurd hctl hno⟩
  have hlt := hmapped c hc
  omega

/-- A byte is erased. -/
theorem canonical_input_erased : ∃ s : Typing Unit,
    (typing serialLine () DEF_TERMIOS).Reach (Typing.Careful serialLine DEF_TERMIOS) s ∧
      s.read = [[97, 10]] ∧ s.expected = [some [97, 10]] ∧
      (s.ttys.tty ()).writeQ.put = [97, 98, 127, 10, 13] := by
  have hrun : ((System.runOf (Typing.next serialLine () DEF_TERMIOS)
      ([.key 97, .key 98, .key 127, .key 10, .read 5] ++ List.replicate 7 (.go false false))
      (Typing.quiet DEF_TERMIOS)).map fun s => (s.read, s.ref.out)) =
        some ([[97, 10]], [97, 98, 127, 10, 13]) := by
    decide +kernel
  obtain ⟨s, hs, heq⟩ := Option.map_eq_some_iff.mp hrun
  obtain ⟨hread, hout⟩ := Prod.mk.inj heq
  have hcareful : ∀ e ∈ [TypingEvent.key 97, .key 98, .key 127, .key 10, .read 5] ++
      List.replicate 7 (.go false false), ∀ s : Typing Unit,
        s.Careful serialLine DEF_TERMIOS e := by
    intro e he s
    have hascii : ∀ {b : BitVec 8}, b.toNat < 128 →
        s.Careful serialLine DEF_TERMIOS (.key b) := fun hb =>
      sane_of_ascii (by decide) (by decide) hb _
    simp only [List.cons_append, List.nil_append, List.mem_cons, List.mem_replicate] at he
    obtain rfl | rfl | rfl | rfl | rfl | ⟨-, rfl⟩ := he
    · exact hascii (by decide)
    · exact hascii (by decide)
    · exact hascii (by decide)
    · exact hascii (by decide)
    · trivial
    · trivial
  have hreach := System.Reach.of_runOf (fun _ _ _ => Typing.step_of_next) hcareful
    (.init (Typing.quiet_init (by decide))) hs
  obtain ⟨hexpected, hput, -⟩ := canonical_input hreach
  rw [hread] at hexpected
  rw [hout] at hput
  exact ⟨s, hreach, hread, hexpected, hput⟩

/-- The settings with 255 as the erase character. -/
abbrev highErase : Termios := { DEF_TERMIOS with cc := Function.update INIT_C_CC VERASE 255 }

/-- An erase character from 128 on does not erase, and is read. -/
theorem canonical_input_high : ¬ ∀ (m : Termios) (s : Typing Unit),
    (typing serialLine () m).Reachable s → s.expected = s.read.map some := by
  intro h
  have hrun : ((System.runOf (Typing.next serialLine () highErase)
      ([.key 97, .key 255, .key 10, .read 5] ++ List.replicate 9 (.go false false))
      (Typing.quiet highErase)).map fun s => (s.read, s.expected)) =
        some ([[97, 255, 10]], [some [10]]) := by
    decide +kernel
  obtain ⟨s, hs, heq⟩ := Option.map_eq_some_iff.mp hrun
  obtain ⟨hread, hexpected⟩ := Prod.mk.inj heq
  have hreach : (typing serialLine () highErase).Reachable s :=
    System.Reach.of_runOf (fun _ _ _ => Typing.step_of_next) (fun _ _ _ => trivial)
      (.init (Typing.quiet_init (by decide))) hs
  have hsame := h highErase s hreach
  rw [hread, hexpected] at hsame
  exact absurd hsame (by decide)

end Tty
