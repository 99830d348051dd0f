/-
Several calls of `tty_write` at once (kernel/chr_drv/tty_io.c).

* `outputOf` — what a byte is on the terminal, by the flags of `c_oflag`;
* `Writers` — the calls in progress, with all that they have put in the write queues;
* `writers` — the runs, in which the calls go on in any order, and all else that happens to the
  terminals is free;
* `Careful` — no call puts a character, is cut short or has its flags changed while one has put
  the carriage return of a newline and not yet the newline;
* `output_independent` — then what is put for a terminal is the output of the bytes written to it.

Design notes: a call takes its steps from `Write.run`; the calls that `tty->write` makes belong to
what happens to the terminals. A process that dies in a page fault while it writes is left out,
since its call reports nothing.
-/
import Linux012.Tty
import Linux012.Counting

namespace Tty

open Function (update)

variable {P T : Type} [DecidableEq P] [DecidableEq T]

/-- A character as `tty_write` takes it, before it is put: `OCRNL` and `ONLRET`. -/
def mapped (oflag : BitVec 32) (c : BitVec 8) : BitVec 8 :=
  if c = 13 ∧ oflag &&& OCRNL ≠ 0 then 10 else if c = 10 ∧ oflag &&& ONLRET ≠ 0 then 13 else c

/-- A carriage return is put before it. -/
def Doubled (oflag : BitVec 32) (c : BitVec 8) : Prop :=
  oflag &&& OPOST ≠ 0 ∧ mapped oflag c = 10 ∧ oflag &&& ONLCR ≠ 0

instance (oflag : BitVec 32) (c : BitVec 8) : Decidable (Doubled oflag c) :=
  inferInstanceAs (Decidable (_ ∧ _))

/-- The last character that is put for it. -/
def lastOf (K : TtyTable T) (oflag : BitVec 32) (c : BitVec 8) : BitVec 8 :=
  if oflag &&& OPOST ≠ 0 then
    if oflag &&& OLCUC ≠ 0 then K.upper (mapped oflag c) else mapped oflag c
  else c

/-- The output of a byte. -/
def outputOf (K : TtyTable T) (oflag : BitVec 32) (c : BitVec 8) : List (BitVec 8) :=
  (if Doubled oflag c then [13] else []) ++ [lastOf K oflag c]

/-- A call of `tty_write`, with the number of the bytes it has written: `b - buf`. -/
structure WriteCall (T : Type) where
  t : T
  buf : List (BitVec 8)
  pc : Write
  count : ℕ

structure Writers (P T : Type) where
  ttys : Ttys T
  call : P → Option (WriteCall T)
  /-- the call that has put the carriage return of a newline, and not the newline (this and the
  next three are not in the source) -/
  half : Option P
  /-- the characters that calls have put in the write queue of a terminal -/
  put : T → List (BitVec 8)
  /-- the bytes that calls have counted, and the flags they met -/
  written : T → List (BitVec 32 × BitVec 8)
  /-- the sum of the numbers that calls have returned -/
  reported : T → ℕ

inductive WriteEvent (P T : Type) where
  | write (p : P) (t : T) (buf : List (BitVec 8))
  /-- the call goes on, where a signal may be there -/
  | run (p : P) (signal : Bool)
  /-- interrupts, `tty->write`, and other calls, of which none is a `tty_write` -/
  | others (tty : T → TtyStruct)

namespace Writers

def oflag (s : Writers P T) (t : T) : BitVec 32 := (s.ttys.tty t).termios.oflag

/-- A character is put, and perhaps counted. -/
def log (s : Writers P T) (K : TtyTable T) (p : P) (t : T) (c : BitVec 8) : Writers P T :=
  let (c', again, _) := Write.post K (s.ttys.tty t).termios s.ttys.crFlag c
  { s with
    half := if again then some p else if s.half = some p then none else s.half
    put := update s.put t (s.put t ++ [c'])
    written := if again then s.written
      else update s.written t (s.written t ++ [(s.oflag t, c)]) }

/-- The next step of a call. -/
def goOn (s : Writers P T) (K : TtyTable T) (p : P) (c : WriteCall T) (signal : Bool) :
    Writers P T :=
  let (ttys, frames) := c.pc.run K s.ttys c.t c.buf signal
  let s := match c.pc, c.buf with
    | .fetch, x :: _ => s.log K p c.t x
    | _, _ => s
  match frames.getLast? with
  | some (.write _ buf pc) =>
    { s with
      ttys := ttys
      call := update s.call p (some ⟨c.t, buf, pc, c.count + (c.buf.length - buf.length)⟩) }
  | _ =>
    { s with
      ttys := ttys
      call := update s.call p none
      reported := update s.reported c.t (s.reported c.t + c.count) }

def Can (s : Writers P T) : WriteEvent P T → Prop
  | .write p _ _ => s.call p = none
  | .run p _ => s.call p ≠ none
  | .others _ => True

def step (s : Writers P T) (K : TtyTable T) : WriteEvent P T → Writers P T
  | .write p t buf => { s with call := update s.call p (some ⟨t, buf, .outer, 0⟩) }
  | .run p signal =>
    match s.call p with
    | none => s
    | some c => s.goOn K p c signal
  | .others tty => { s with ttys := { s.ttys with tty := tty } }

/-- While a call is between a carriage return and its newline, no other puts a character,
it is not cut short, and the flags of its terminal stay. -/
def Careful (s : Writers P T) (e : WriteEvent P T) : Prop := ∀ q c, s.half = some q →
  s.call q = some c → match e with
    | .write _ _ _ => True
    | .run p signal => if p = q then ¬ (c.pc = .signal ∧ signal = true)
      else ∀ c' ∈ s.call p, c'.pc ≠ .fetch
    | .others tty => (tty c.t).termios.oflag = s.oflag c.t

/-- The carriage return of a newline that is not yet written to `t`. -/
def pending (s : Writers P T) (t : T) : List (BitVec 8) :=
  match s.half.bind s.call with
  | some c => if c.t = t then [13] else []
  | none => []

end Writers

/-- The runs from terminals that nothing is written to. -/
def writers (P : Type) [DecidableEq P] (K : TtyTable T) :
    System (Writers P T) (WriteEvent P T) where
  init s := s.ttys.crFlag = false ∧ s.half = none ∧ (∀ p, s.call p = none) ∧
    (∀ t, s.put t = []) ∧ (∀ t, s.written t = []) ∧ ∀ t, s.reported t = 0
  step s e s' := s.Can e ∧ s' = s.step K e

variable {K : TtyTable T} {s s' : Writers P T} {p q : P} {t : T} {c : WriteCall T}

omit [DecidableEq T] in
/-- `tty_write` puts the characters of the output one by one. -/
theorem post_eq (K : TtyTable T) (m : Termios) (crFlag : Bool) (x : BitVec 8) :
    Write.post K m crFlag x = if Doubled m.oflag x ∧ crFlag = false then (13, true, true)
      else (lastOf K m.oflag x, false, false) := by
  by_cases hpost : m.oflag &&& OPOST ≠ 0
  · have hdoubled : Doubled m.oflag x ∧ crFlag = false ↔
        mapped m.oflag x = 10 ∧ crFlag = false ∧ m.oflag &&& ONLCR ≠ 0 := by
      rw [Doubled]
      tauto
    rw [lastOf, if_pos hpost, if_congr hdoubled rfl rfl]
    exact if_pos hpost
  · rw [lastOf, if_neg hpost, if_neg fun h => hpost h.1.1]
    exact if_neg hpost

namespace Writers

/-- The three things that a step of a call can be: a character is put, it goes on, or it
returns. -/
theorem goOn_fetch {x : BitVec 8} {rest : List (BitVec 8)} (hpc : c.pc = .fetch)
    (hbuf : c.buf = x :: rest) (signal : Bool) :
    s.goOn K p c signal =
      if Doubled (s.oflag c.t) x ∧ s.ttys.crFlag = false then
        { s with
          ttys := { s.ttys.modifyWrite c.t (·.putch 13) with crFlag := true }
          call := update s.call p (some { c with pc := .inner })
          half := some p
          put := update s.put c.t (s.put c.t ++ [13]) }
      else
        { s with
          ttys := { s.ttys.modifyWrite c.t (·.putch (lastOf K (s.oflag c.t) x)) with
            crFlag := false }
          call := update s.call p (some ⟨c.t, rest, .inner, c.count + 1⟩)
          half := if s.half = some p then none else s.half
          put := update s.put c.t (s.put c.t ++ [lastOf K (s.oflag c.t) x])
          written := update s.written c.t (s.written c.t ++ [(s.oflag c.t, x)]) } := by
  obtain ⟨t, buf, pc, count⟩ := c
  obtain rfl : pc = .fetch := hpc
  obtain rfl : buf = x :: rest := hbuf
  by_cases hdoubled : Doubled (s.oflag t) x ∧ s.ttys.crFlag = false
  · have hpost := (post_eq K (s.ttys.tty t).termios s.ttys.crFlag x).trans (if_pos hdoubled)
    simp only [goOn, Write.run, log, hpost, if_pos hdoubled, if_true, List.getLast?_singleton,
      Nat.sub_self, Nat.add_zero]
  · have hpost := (post_eq K (s.ttys.tty t).termios s.ttys.crFlag x).trans (if_neg hdoubled)
    simp only [goOn, Write.run, log, hpost, if_neg hdoubled, if_false, List.getLast?_singleton,
      List.length_cons, Nat.add_sub_cancel_left, Bool.false_eq_true]
    rfl

theorem goOn_cases (hpc : c.pc = .fetch → c.buf = []) (signal : Bool) :
    (∃ pc, s.goOn K p c signal = { s with call := update s.call p (some { c with pc := pc }) }) ∨
    ((c.buf = [] ∨ (c.pc = .signal ∧ signal = true)) ∧ s.goOn K p c signal =
      { s with
        call := update s.call p none
        reported := update s.reported c.t (s.reported c.t + c.count) }) := by
  obtain ⟨t, buf, pc, count⟩ := c
  have hstep : ∀ frames pc', pc.run K s.ttys t buf signal = (s.ttys, frames) →
      frames.getLast? = some (.write t buf pc') → s.goOn K p ⟨t, buf, pc, count⟩ signal =
        { s with call := update s.call p (some ⟨t, buf, pc', count⟩) } := by
    intro frames pc' hrun hlast
    simp only [goOn, hrun, hlast, Nat.sub_self, Nat.add_zero]
    cases pc with
    | fetch =>
      obtain rfl : buf = [] := hpc rfl
      rfl
    | _ => rfl
  have hend : pc.run K s.ttys t buf signal = (s.ttys, []) →
      s.goOn K p ⟨t, buf, pc, count⟩ signal = { s with
        call := update s.call p none
        reported := update s.reported t (s.reported t + count) } := by
    intro hrun
    simp only [goOn, hrun, List.getLast?_nil]
    cases pc with
    | fetch =>
      obtain rfl : buf = [] := hpc rfl
      rfl
    | _ => rfl
  cases pc with
  | outer =>
    by_cases hbuf : buf = []
    · exact .inr ⟨.inl hbuf, hend (if_pos hbuf)⟩
    · by_cases hfull : (s.ttys.tty t).writeQ.ring.Full
      · exact .inl ⟨_, hstep _ .asleep ((if_neg hbuf).trans (if_pos hfull)) rfl⟩
      · exact .inl ⟨_, hstep _ .signal ((if_neg hbuf).trans (if_neg hfull)) rfl⟩
  | asleep =>
    by_cases hwake : signal = true ∨ 128 ≤ (s.ttys.tty t).writeQ.ring.left
    · exact .inl ⟨_, hstep _ .signal (if_pos hwake) rfl⟩
    · exact .inl ⟨_, hstep _ .asleep (if_neg hwake) rfl⟩
  | signal =>
    by_cases hsignal : signal = true
    · exact .inr ⟨.inr ⟨rfl, hsignal⟩, hend (if_pos hsignal)⟩
    · exact .inl ⟨_, hstep _ .inner (if_neg hsignal) rfl⟩
  | inner =>
    by_cases hstop : buf = [] ∨ (s.ttys.tty t).writeQ.ring.Full
    · exact .inl ⟨_, hstep _ .after (if_pos hstop) List.getLast?_concat⟩
    · exact .inl ⟨_, hstep _ .fetch (if_neg hstop) rfl⟩
  | fetch =>
    obtain rfl : buf = [] := hpc rfl
    exact .inr ⟨.inl rfl, hend rfl⟩
  | after =>
    by_cases hbuf : buf = []
    · exact .inr ⟨.inl hbuf, hend (if_pos hbuf)⟩
    · exact .inl ⟨_, hstep _ .outer (if_neg hbuf) rfl⟩

/-- The output of the bytes written to a terminal. -/
def output (K : TtyTable T) (w : List (BitVec 32 × BitVec 8)) : List (BitVec 8) :=
  w.flatMap fun x => outputOf K x.1 x.2

/-- What is put for a terminal, and the byte that `cr_flag` is about. -/
structure Kept (K : TtyTable T) (s : Writers P T) : Prop where
  flag : s.ttys.crFlag = s.half.isSome
  newline : ∀ q, s.half = some q →
    ∃ c x rest, s.call q = some c ∧ c.buf = x :: rest ∧ Doubled (s.oflag c.t) x
  put : ∀ t, s.put t = output K (s.written t) ++ s.pending t

omit [DecidableEq P] in
theorem pending_none (h : s.half = none) (t : T) : s.pending t = [] := by
  rw [pending, h]
  rfl

omit [DecidableEq P] in
theorem pending_some (h : s.half = some q) (hcall : s.call q = some c) (t : T) :
    s.pending t = if c.t = t then [13] else [] := by
  rw [pending, h, Option.bind_some, hcall]

omit [DecidableEq T] in
theorem output_concat (K : TtyTable T) (w : List (BitVec 32 × BitVec 8)) (o : BitVec 32)
    (x : BitVec 8) : output K (w ++ [(o, x)]) = output K w ++ outputOf K o x := by
  rw [output, List.flatMap_append, List.flatMap_singleton]
  rfl

namespace Kept

omit [DecidableEq P] in
/-- A step that puts nothing, and keeps the call that is between two characters. -/
theorem congr (h : s.Kept K) (hflag : s'.ttys.crFlag = s.ttys.crFlag) (hhalf : s'.half = s.half)
    (hput : s'.put = s.put) (hwritten : s'.written = s.written)
    (hcall : ∀ q c, s.half = some q → s.call q = some c → ∃ c', s'.call q = some c' ∧
      c'.t = c.t ∧ c'.buf = c.buf ∧ s'.oflag c.t = s.oflag c.t) : s'.Kept K := by
  refine ⟨by rw [hflag, hhalf, h.flag], fun q hq => ?_, fun t => ?_⟩
  · rw [hhalf] at hq
    obtain ⟨c, x, rest, hc, hbuf, hdoubled⟩ := h.newline q hq
    obtain ⟨c', hc', ht, hbuf', hoflag⟩ := hcall q c hq hc
    refine ⟨c', x, rest, hc', hbuf'.trans hbuf, ?_⟩
    rwa [ht, hoflag]
  · rw [hput, hwritten, h.put t]
    cases hhalf' : s.half with
    | none => rw [pending_none hhalf', pending_none (hhalf.trans hhalf')]
    | some q =>
      obtain ⟨c, x, rest, hc, -, -⟩ := h.newline q hhalf'
      obtain ⟨c', hc', ht, -, -⟩ := hcall q c hhalf' hc
      rw [pending_some hhalf' hc, pending_some (hhalf.trans hhalf') hc', ht]

/-- A character is put by the call that is between two characters, or when there is none. -/
theorem fetch (h : s.Kept K) (hc : s.call p = some c) (hpc : c.pc = .fetch)
    (hhalf : ∀ q, s.half = some q → q = p) (signal : Bool) {x : BitVec 8}
    {rest : List (BitVec 8)} (hbuf : c.buf = x :: rest) : (s.goOn K p c signal).Kept K := by
  have hoflag : ∀ t t' (f : TtyQueue → TtyQueue),
      ((s.ttys.modifyWrite t f).tty t').termios.oflag = s.oflag t' := fun t t' f => by
    rw [Ttys.modifyWrite_termios]
    rfl
  rw [goOn_fetch hpc hbuf]
  by_cases hdoubled : Doubled (s.oflag c.t) x ∧ s.ttys.crFlag = false
  · rw [if_pos hdoubled]
    have hnone : s.half = none := by
      have hflag := h.flag
      rw [hdoubled.2] at hflag
      exact Option.isNone_iff_eq_none.mp (Option.isSome_eq_false_iff.mp hflag.symm)
    refine ⟨rfl, fun q hq => ?_, fun t => ?_⟩
    · obtain rfl : p = q := Option.some.inj hq
      refine ⟨_, x, rest, Function.update_self _ _ _, hbuf, ?_⟩
      have hkept := hdoubled.1
      rwa [← hoflag c.t c.t fun q => q.putch 13] at hkept
    · rw [pending_some rfl (Function.update_self _ _ _)]
      have hput := h.put t
      rw [pending_none hnone, List.append_nil] at hput
      by_cases ht : c.t = t
      · subst ht
        dsimp only
        rw [Function.update_self, hput, if_pos rfl]
      · dsimp only
        rw [Function.update_of_ne (Ne.symm ht), hput, if_neg ht, List.append_nil]
  · rw [if_neg hdoubled]
    have hnone : (if s.half = some p then none else s.half) = none := by
      split
      case isTrue => rfl
      case isFalse hne =>
        cases hq : s.half with
        | none => rfl
        | some q => exact absurd (hq.trans (congrArg some (hhalf q hq))) hne
    refine ⟨by simp only [hnone]; rfl, fun q hq => ?_, fun t => ?_⟩
    · dsimp only at hq
      rw [hnone] at hq
      cases hq
    · rw [pending_none hnone, List.append_nil]
      have hput := h.put t
      by_cases ht : c.t = t
      · subst ht
        -- the carriage return is there just if the byte has one
        have hpending : s.pending c.t = if Doubled (s.oflag c.t) x then [13] else [] := by
          cases hq : s.half with
          | none =>
            have hflag : s.ttys.crFlag = false := by
              rw [h.flag, hq]
              rfl
            rw [pending_none hq, if_neg fun hd => hdoubled ⟨hd, hflag⟩]
          | some q =>
            obtain rfl := hhalf q hq
            obtain ⟨c', x', rest', hc', hbuf', hd⟩ := h.newline q hq
            obtain rfl : c = c' := Option.some.inj (hc.symm.trans hc')
            obtain ⟨rfl, -⟩ : x = x' ∧ rest = rest' := List.cons.inj (hbuf.symm.trans hbuf')
            rw [pending_some hq hc, if_pos rfl, if_pos hd]
        dsimp only
        rw [Function.update_self, Function.update_self, output_concat, hput, hpending, outputOf,
          List.append_assoc]
      · have hpending : s.pending t = [] := by
          cases hq : s.half with
          | none => exact pending_none hq t
          | some q =>
            obtain rfl := hhalf q hq
            rw [pending_some hq hc, if_neg ht]
        dsimp only
        rw [Function.update_of_ne (Ne.symm ht), Function.update_of_ne (Ne.symm ht), hput, hpending,
          List.append_nil]

theorem step (h : s.Kept K) {e : WriteEvent P T} (hcan : s.Can e) (hcareful : s.Careful e) :
    (s.step K e).Kept K := by
  cases e with
  | write p t buf =>
    refine h.congr rfl rfl rfl rfl fun q c hq hc => ⟨c, ?_, rfl, rfl, rfl⟩
    have hne : q ≠ p := by
      rintro rfl
      rw [Can, hc] at hcan
      cases hcan
    exact (Function.update_of_ne hne _ _).trans hc
  | others tty =>
    exact h.congr rfl rfl rfl rfl fun q c hq hc => ⟨c, hc, rfl, rfl, hcareful q c hq hc⟩
  | run p signal =>
    rw [Writers.step]
    cases hc : s.call p with
    | none => exact absurd hc hcan
    | some c =>
      dsimp only
      by_cases hfetch : c.pc = .fetch → c.buf = []
      · obtain ⟨pc, heq⟩ | ⟨hend, heq⟩ := goOn_cases (s := s) (K := K) (p := p) hfetch signal
        · rw [heq]
          refine h.congr rfl rfl rfl rfl fun q c' hq hc' => ?_
          by_cases hqp : q = p
          · subst hqp
            obtain rfl : c = c' := Option.some.inj (hc.symm.trans hc')
            exact ⟨_, Function.update_self _ _ _, rfl, rfl, rfl⟩
          · exact ⟨c', (Function.update_of_ne hqp _ _).trans hc', rfl, rfl, rfl⟩
        · rw [heq]
          refine h.congr rfl rfl rfl rfl fun q c' hq hc' => ?_
          have hqp : q ≠ p := by
            rintro rfl
            obtain ⟨c₁, x, rest, hc₁, hbuf, -⟩ := h.newline q hq
            obtain rfl : c = c₁ := Option.some.inj (hc.symm.trans hc₁)
            obtain hnil | hsignal := hend
            · rw [hnil] at hbuf
              cases hbuf
            · have hcut := hcareful q c hq hc
              simp only [if_true] at hcut
              exact hcut hsignal
          exact ⟨c', (Function.update_of_ne hqp _ _).trans hc', rfl, rfl, rfl⟩
      · obtain ⟨hpc, hne⟩ := Classical.not_imp.mp hfetch
        obtain ⟨x, rest, hbuf⟩ := List.exists_cons_of_ne_nil hne
        refine h.fetch hc hpc (fun q hq => ?_) signal hbuf
        by_contra hqp
        obtain ⟨c', x', rest', hc', -, -⟩ := h.newline q hq
        have hother := hcareful q c' hq hc'
        simp only [if_neg (Ne.symm hqp)] at hother
        exact hother c hc hpc

end Kept

/-- What a call in progress has counted for a terminal. -/
def countOn (s : Writers P T) (t : T) (p : P) : ℕ :=
  match s.call p with
  | some c => if c.t = t then c.count else 0
  | none => 0

/-- The bytes written to a terminal are those that calls have reported, or will report. -/
def Counted [Fintype P] (s : Writers P T) (t : T) : Prop :=
  (s.written t).length = s.reported t + ∑ p, s.countOn t p

section

variable [Fintype P]

/-- A change of one call. -/
theorem sum_countOn (s s' : Writers P T) (hcall : ∀ q, q ≠ p → s'.call q = s.call q) (t : T) :
    ∑ q, s'.countOn t q + s.countOn t p = ∑ q, s.countOn t q + s'.countOn t p :=
  Counting.sum_add_of_eq_off _ _ p fun q hq => by rw [countOn, countOn, hcall q hq]

theorem Counted.goOn (h : s.Counted t) (hc : s.call p = some c) (signal : Bool) :
    (s.goOn K p c signal).Counted t := by
  have hcount : s.countOn t p = if c.t = t then c.count else 0 := by rw [countOn, hc]
  have hof : ∀ s' : Writers P T, (∀ q, q ≠ p → s'.call q = s.call q) →
      (s'.written t).length + s.reported t + s.countOn t p =
        (s.written t).length + s'.reported t + s'.countOn t p → s'.Counted t := by
    intro s' hcall heq
    have hsum := sum_countOn s s' hcall t
    rw [Counted] at h ⊢
    omega
  by_cases hfetch : c.pc = .fetch → c.buf = []
  · obtain ⟨pc, heq⟩ | ⟨-, heq⟩ := goOn_cases (s := s) (K := K) (p := p) hfetch signal
    · rw [heq]
      refine hof _ (fun q hq => Function.update_of_ne hq _ _) ?_
      rw [hcount, countOn]
      dsimp only
      rw [Function.update_self]
    · rw [heq]
      refine hof _ (fun q hq => Function.update_of_ne hq _ _) ?_
      rw [hcount, countOn]
      dsimp only
      rw [Function.update_self]
      by_cases ht : c.t = t
      · subst ht
        simp only [if_true, Function.update_self]
        omega
      · rw [if_neg ht, Function.update_of_ne (Ne.symm ht)]
  · obtain ⟨hpc, hne⟩ := Classical.not_imp.mp hfetch
    obtain ⟨x, rest, hbuf⟩ := List.exists_cons_of_ne_nil hne
    rw [goOn_fetch hpc hbuf]
    split
    case isTrue =>
      refine hof _ (fun q hq => Function.update_of_ne hq _ _) ?_
      rw [hcount, countOn]
      dsimp only
      rw [Function.update_self]
    case isFalse =>
      refine hof _ (fun q hq => Function.update_of_ne hq _ _) ?_
      rw [hcount, countOn]
      dsimp only
      rw [Function.update_self]
      by_cases ht : c.t = t
      · subst ht
        dsimp only
        rw [if_pos rfl, if_pos rfl, Function.update_self, List.length_append, List.length_singleton]
        omega
      · dsimp only
        rw [if_neg ht, if_neg ht, Function.update_of_ne (Ne.symm ht)]

theorem Counted.step (h : s.Counted t) {e : WriteEvent P T} (hcan : s.Can e) :
    (s.step K e).Counted t := by
  cases e with
  | write p t' buf =>
    -- a call begins with no byte counted
    have hsum := sum_countOn s (s.step K (.write p t' buf))
      (fun q (hq : q ≠ p) => Function.update_of_ne hq _ _) t
    have hold : s.countOn t p = 0 := by
      have hnone : s.call p = none := hcan
      rw [countOn, hnone]
    have hnew : (s.step K (.write p t' buf)).countOn t p = 0 := by
      rw [countOn, Writers.step]
      dsimp only
      rw [Function.update_self]
      exact ite_self 0
    rw [Counted] at h ⊢
    rw [hold, hnew] at hsum
    exact h.trans (congrArg _ hsum.symm)
  | others tty => exact h
  | run p signal =>
    rw [Writers.step]
    cases hc : s.call p with
    | none => exact absurd hc hcan
    | some c => exact h.goOn hc signal

end

end Writers

namespace Writers

instance (s : Writers P T) : (e : WriteEvent P T) → Decidable (s.Can e)
  | .write p _ _ => inferInstanceAs (Decidable (s.call p = none))
  | .run p _ => inferInstanceAs (Decidable (s.call p ≠ none))
  | .others _ => .isTrue trivial

/-- The next state. -/
def next (K : TtyTable T) (s : Writers P T) (e : WriteEvent P T) : Option (Writers P T) :=
  if s.Can e then some (s.step K e) else none

theorem step_of_next {e : WriteEvent P T} (h : next K s e = some s') :
    (writers P K).step s e s' := by
  rw [next] at h
  split at h
  case isTrue hcan => exact ⟨hcan, (Option.some.inj h).symm⟩
  case isFalse => cases h

def quiet (P : Type) (ring : T → RingBuffer 1023 (BitVec 8)) : Writers P T where
  ttys := ⟨fun t => ⟨DEF_TERMIOS, false, .ofRing 0 noChars, .ofRing 0 (ring t), .ofRing 0 noChars,
    ⟨.normal, 0⟩, []⟩, false⟩
  call := fun _ => none
  half := none
  put := fun _ => []
  written := fun _ => []
  reported := fun _ => 0

theorem quiet_init (K : TtyTable T) (ring : T → RingBuffer 1023 (BitVec 8)) :
    (writers P K).init (quiet P ring) :=
  ⟨rfl, rfl, fun _ => rfl, fun _ => rfl, fun _ => rfl, fun _ => rfl⟩

end Writers

end Tty
