/-
The characters that `con_write` takes from the write queue of a console.

* `hands` — the characters taken and not yet interpreted, by all calls in progress;
* `Clear` — no character is taken while another call of `con_write` on the same console has
  characters to take or one in hand, and none is put in a full queue;
* `con_write_once` — then every character is taken once, in the order of the queue.
-/
import Linux012.Tty

namespace Tty

variable {T : Type} [DecidableEq T]

/-- `con_write` has no more characters to take, and none in hand. -/
def Frame.Spent (t : T) : Frame T → Prop
  | .con t' nr pc => t' = t → nr = 0 ∧ pc = .test
  | _ => True

/-- If `t` is a console, its write queue is not full. -/
def Ttys.HasRoom (K : TtyTable T) (s : Ttys T) (t : T) : Prop :=
  K.kind t = .console → ¬ (s.tty t).writeQ.ring.Full

/-- The next step of a call is clear of the calls below it. -/
def Frame.Clear (K : TtyTable T) (s : Ttys T) (rest : List (Frame T)) : Frame T → Prop
  | .con t _ .take => ∀ g ∈ rest, g.Spent t
  | .cooked t (.rub (_ :: _) _) => s.HasRoom K t
  | .cooked t (.echo (_ :: _) _) => s.HasRoom K t
  | .write t _ .fetch => s.HasRoom K t
  | _ => True

def Terminals.Clear (K : TtyTable T) (s : Terminals T) : TtyEvent T → Prop
  | .run _ _ => ∀ f rest, s.stack = f :: rest → f.Clear K s.ttys rest
  | .flow t .TCIOFF => (s.ttys.tty t).termios.cc VSTOP ≠ 0 → s.ttys.HasRoom K t
  | .flow t .TCION => (s.ttys.tty t).termios.cc VSTART ≠ 0 → s.ttys.HasRoom K t
  | _ => True

/-- The character that a call of `con_write` has taken and not yet interpreted. -/
def Frame.hand (t : T) : Frame T → List (BitVec 8)
  | .con t' _ (.interp c) => if t' = t then [c] else []
  | _ => []

def hands (t : T) (l : List (Frame T)) : List (BitVec 8) := l.flatMap (Frame.hand t)

/-- A call of `con_write` that has read a character from the queue. -/
def Frame.Holding (t : T) : Frame T → Prop
  | .con t' _ (.inc _) => t' = t
  | .con t' _ (.interp _) => t' = t
  | _ => False

/-- The characters a call of `con_write` has yet to take are in the queue, and `pty_copy` takes
from no console. -/
def Frame.Fits (K : TtyTable T) (t : T) (q : TtyQueue) : Frame T → Prop
  | .con t' nr .take => t' = t → nr + 1 ≤ q.ring.count
  | .con t' nr (.inc c) => t' = t → nr + 1 ≤ q.ring.count ∧ q.ring.front = c
  | .con t' nr _ => t' = t → nr ≤ q.ring.count
  | .pty src _ => K.kind src ≠ .console
  | _ => True

/-- A console, with the calls in progress. -/
structure TtyStruct.Shows (K : TtyTable T) (y : TtyStruct) (t : T) (l : List (Frame T)) : Prop where
  sound : y.writeQ.Sound
  got : y.writeQ.got = y.shown ++ hands t l
  fits : ∀ f ∈ l, f.Fits K t y.writeQ
  /-- below a call that holds a character all others are spent -/
  alone : l.Pairwise fun f g => f.Holding t → g.Spent t

variable {K : TtyTable T} {s s' : Ttys T} {t : T} {f : Frame T} {l l' m rest : List (Frame T)}
  {signal expired : Bool} {y y' : TtyStruct}

@[simp] theorem hands_cons (t : T) (f : Frame T) (l : List (Frame T)) :
    hands t (f :: l) = f.hand t ++ hands t l := rfl

@[simp] theorem hands_append (t : T) (l l' : List (Frame T)) :
    hands t (l ++ l') = hands t l ++ hands t l' := List.flatMap_append

/-- A call that takes no character of the console `t`, or one that begins or is spent. -/
def Frame.Plain (K : TtyTable T) (t : T) : Frame T → Prop
  | .con t' nr .enter => t' = t → nr = 0
  | .con t' nr .test => t' = t → nr = 0
  | .con t' _ _ => t' ≠ t
  | .pty src _ => K.kind src ≠ .console
  | _ => True

namespace Frame.Plain

theorem hand_eq (h : f.Plain K t) : f.hand t = [] := by
  cases f with
  | con t' nr pc =>
    cases pc with
    | interp c => exact if_neg h
    | _ => rfl
  | _ => rfl

omit [DecidableEq T] in
theorem not_holding (h : f.Plain K t) : ¬ f.Holding t := by
  cases f with
  | con t' nr pc =>
    cases pc with
    | inc c => exact h
    | interp c => exact h
    | _ => exact id
  | _ => exact id

omit [DecidableEq T] in
theorem fits (h : f.Plain K t) (q : TtyQueue) : f.Fits K t q := by
  cases f with
  | con t' nr pc =>
    cases pc with
    | enter => exact fun ht => (h ht).trans_le (Nat.zero_le _)
    | test => exact fun ht => (h ht).trans_le (Nat.zero_le _)
    | take => exact fun ht => absurd ht h
    | inc c => exact fun ht => absurd ht h
    | interp c => exact fun ht => absurd ht h
  | pty src dst => exact h
  | _ => trivial

end Frame.Plain

omit [DecidableEq T] in
/-- A character is put in the queue behind the others. -/
theorem Frame.Fits.putch {q : TtyQueue} (h : f.Fits K t q) (c : BitVec 8) (hfull : ¬ q.ring.Full) :
    f.Fits K t (q.putch c) := by
  have hcount : (q.putch c).ring.count = q.ring.count + 1 := RingBuffer.count_push c hfull
  cases f with
  | con t' nr pc =>
    cases pc with
    | inc x =>
      intro ht
      obtain ⟨hle, hfront⟩ := h ht
      refine ⟨by omega, ?_⟩
      -- the queue is not empty, and its first character stays
      have hempty : ¬ q.ring.Empty := fun hempty => by
        rw [RingBuffer.empty_iff] at hempty
        omega
      exact (Function.update_of_ne (Ne.symm hempty) _ _).trans hfront
    | enter => exact fun ht => (h ht).trans (by omega)
    | test => exact fun ht => (h ht).trans (by omega)
    | take => exact fun ht => (h ht).trans (by omega)
    | interp x => exact fun ht => (h ht).trans (by omega)
  | pty src dst => exact h
  | _ => trivial

namespace TtyStruct.Shows

/-- A call that holds no character ends. -/
theorem drop (h : y.Shows K t (f :: rest)) (hf : f.hand t = []) : y.Shows K t rest := by
  refine ⟨h.sound, ?_, fun g hg => h.fits g (List.mem_cons_of_mem _ hg),
    (List.pairwise_cons.mp h.alone).2⟩
  rw [h.got, hands_cons, hf, List.nil_append]

/-- Plain calls begin. -/
theorem push (h : y.Shows K t rest) (hplain : ∀ g ∈ m, g.Plain K t) :
    y.Shows K t (m ++ rest) := by
  have hhands : hands t m = [] := List.flatMap_eq_nil_iff.mpr fun g hg => (hplain g hg).hand_eq
  refine ⟨h.sound, ?_, fun g hg => ?_, ?_⟩
  · rw [hands_append, hhands, List.nil_append, h.got]
  · obtain hg | hg := List.mem_append.mp hg
    · exact (hplain g hg).fits _
    · exact h.fits g hg
  · refine List.pairwise_append.mpr ⟨?_, h.alone, ?_⟩
    · exact List.pairwise_of_forall_mem_list fun g hg _ _ hhold =>
        absurd hhold (hplain g hg).not_holding
    · exact fun g hg _ _ hhold => absurd hhold (hplain g hg).not_holding

/-- The calls that take the place of a call that holds no character. -/
theorem replace (h : y.Shows K t (f :: rest)) (hf : f.hand t = [])
    (hplain : ∀ g ∈ m, g.Plain K t) : y.Shows K t (m ++ rest) := (h.drop hf).push hplain

theorem congr (h : y.Shows K t l) (hqueue : y'.writeQ = y.writeQ) (hshown : y'.shown = y.shown) :
    y'.Shows K t l := by
  refine ⟨?_, ?_, ?_, h.alone⟩
  · rw [hqueue]
    exact h.sound
  · rw [hqueue, hshown]
    exact h.got
  · rw [hqueue]
    exact h.fits

/-- A character is put behind the others. -/
theorem putch (h : y.Shows K t l) (c : BitVec 8) (hfull : ¬ y.writeQ.ring.Full) :
    ({ y with writeQ := y.writeQ.putch c } : TtyStruct).Shows K t l :=
  ⟨h.sound.putch c hfull, h.got, fun g hg => (h.fits g hg).putch c hfull, h.alone⟩

end TtyStruct.Shows

/-- All consoles. -/
def AllShow (K : TtyTable T) (s : Ttys T) (l : List (Frame T)) : Prop :=
  ∀ t, K.kind t = .console → (s.tty t).Shows K t l

namespace AllShow

theorem replace (h : AllShow K s (f :: rest)) (hf : ∀ t, f.hand t = [])
    (hplain : ∀ g ∈ m, ∀ t, g.Plain K t) : AllShow K s (m ++ rest) := fun t ht =>
  (h t ht).replace (hf t) fun g hg => hplain g hg t

theorem push (h : AllShow K s rest) (hplain : ∀ g ∈ m, ∀ t, g.Plain K t) :
    AllShow K s (m ++ rest) := fun t ht => (h t ht).push fun g hg => hplain g hg t

theorem congr (h : AllShow K s l)
    (hqueue : ∀ t, K.kind t = .console → (s'.tty t).writeQ = (s.tty t).writeQ)
    (hshown : ∀ t, (s'.tty t).shown = (s.tty t).shown) : AllShow K s' l := fun t ht =>
  (h t ht).congr (hqueue t ht) (hshown t)

theorem modify (h : AllShow K s l) {g : TtyStruct → TtyStruct}
    (hself : K.kind t = .console → (g (s.tty t)).Shows K t l) : AllShow K (s.modify t g) l := by
  intro t' ht'
  by_cases heq : t' = t
  · subst heq
    rw [Ttys.modify_tty_self]
    exact hself ht'
  · rw [Ttys.modify_tty_of_ne heq]
    exact h t' ht'

theorem putch (h : AllShow K s l) (c : BitVec 8) (hroom : s.HasRoom K t) :
    AllShow K (s.modifyWrite t (·.putch c)) l :=
  AllShow.modify (g := fun y => { y with writeQ := y.writeQ.putch c }) h fun ht =>
    (h t ht).putch c (hroom ht)

/-- A change of the read queue or the secondary queue. -/
theorem modifyRead (h : AllShow K s l) (t : T) (g : TtyQueue → TtyQueue) :
    AllShow K (s.modifyRead t g) l :=
  h.congr (fun t' _ => Ttys.modify_keeps TtyStruct.writeQ s t t' fun _ => rfl)
    fun t' => Ttys.modify_keeps TtyStruct.shown s t t' fun _ => rfl

theorem modifySecondary (h : AllShow K s l) (t : T) (g : TtyQueue → TtyQueue) :
    AllShow K (s.modifySecondary t g) l :=
  h.congr (fun t' _ => Ttys.modify_keeps TtyStruct.writeQ s t t' fun _ => rfl)
    fun t' => Ttys.modify_keeps TtyStruct.shown s t t' fun _ => rfl

end AllShow

omit [DecidableEq T] in
/-- The calls that a terminal's `write` begins are plain. -/
theorem plain_write (t t' : T) : ∀ g ∈ (K.kind t').write t', Frame.Plain K t g := by
  intro g hg
  cases hkind : K.kind t' with
  | console =>
    rw [hkind] at hg
    obtain rfl := List.mem_singleton.mp hg
    exact fun _ => rfl
  | serial =>
    rw [hkind] at hg
    exact absurd hg List.not_mem_nil
  | master other =>
    rw [hkind] at hg
    obtain rfl := List.mem_singleton.mp hg
    show K.kind t' ≠ .console
    rw [hkind]
    exact nofun
  | slave other =>
    rw [hkind] at hg
    obtain rfl := List.mem_singleton.mp hg
    show K.kind t' ≠ .console
    rw [hkind]
    exact nofun

omit [DecidableEq T] in
theorem plain_pull (t t' : T) : ∀ g ∈ Read.pull t' (K.kind t'), Frame.Plain K t g := by
  intro g hg
  cases hkind : K.kind t' with
  | console =>
    rw [hkind] at hg
    exact absurd hg List.not_mem_nil
  | serial =>
    rw [hkind] at hg
    exact absurd hg List.not_mem_nil
  | master other =>
    rw [hkind] at hg
    obtain rfl := List.mem_singleton.mp hg
    show K.kind other ≠ .console
    rw [(K.pair t' other).mp hkind]
    exact nofun
  | slave other =>
    rw [hkind] at hg
    obtain rfl := List.mem_singleton.mp hg
    show K.kind other ≠ .console
    rw [(K.pair other t').mpr hkind]
    exact nofun

namespace Cooked

theorem dispatch_shows {pc : Cooked} (h : AllShow K s (.cooked t pc :: rest)) (c : BitVec 8) :
    AllShow K (dispatch K s t c).1 ((dispatch K s t c).2 ++ rest) := by
  have hsame : ∀ pc' : Cooked, AllShow K s ([.cooked t pc'] ++ rest) := fun pc' =>
    h.replace (fun _ => rfl) (by simp [Frame.Plain])
  have hstopped : ∀ b : Bool, AllShow K (s.modify t fun y => { y with stopped := b })
      ((K.kind t).write t ++ [.cooked t .top] ++ rest) := by
    intro b
    refine AllShow.congr (h.replace (fun _ => rfl) fun g hg t' => ?_)
      (fun t' _ => Ttys.modify_keeps TtyStruct.writeQ s t t' fun _ => rfl)
      fun t' => Ttys.modify_keeps TtyStruct.shown s t t' fun _ => rfl
    obtain hg | hg := List.mem_append.mp hg
    · exact plain_write t' t g hg
    · obtain rfl := List.mem_singleton.mp hg
      trivial
  rw [dispatch]
  dsimp only
  split
  case isTrue => exact hsame .kill
  split
  case isTrue =>
    split
    case isTrue => exact hsame .top
    case isFalse => exact hsame _
  split
  case isTrue => exact hstopped true
  split
  case isTrue => exact hstopped false
  split
  case isTrue => exact hsame .top
  split
  case isTrue =>
    show AllShow K (s.modifySecondary t fun q => { q with data := q.data + 1 }) (_ ++ rest)
    exact (hsame _).modifySecondary t _
  case isFalse => exact hsame _

theorem run_shows {pc : Cooked} (h : AllShow K s (.cooked t pc :: rest))
    (hclear : (Frame.cooked t pc).Clear K s rest) :
    AllShow K (pc.run K s t).1 ((pc.run K s t).2 ++ rest) := by
  have hdrop : AllShow K s rest := h.replace (m := []) (fun _ => rfl) nofun
  have hsame : ∀ pc' : Cooked, AllShow K s ([.cooked t pc'] ++ rest) := fun pc' =>
    h.replace (fun _ => rfl) (by simp [Frame.Plain])
  have hwrite : ∀ pc' : Cooked, AllShow K s ((K.kind t).write t ++ [.cooked t pc'] ++ rest) := by
    refine fun pc' => h.replace (fun _ => rfl) fun g hg t' => ?_
    obtain hg | hg := List.mem_append.mp hg
    · exact plain_write t' t g hg
    · obtain rfl := List.mem_singleton.mp hg
      trivial
  cases pc with
  | top =>
    rw [run]
    split
    case isTrue => exact hdrop
    case isFalse => exact hsame .room
  | room =>
    rw [run]
    split
    case isTrue => exact hdrop
    case isFalse => exact hsame .get
  | get => exact (hsame _).modifyRead t _
  | got c =>
    rw [run]
    split
    · exact hsame .top
    · exact dispatch_shows h _
  | kill =>
    rw [run]
    split
    case isTrue => exact hsame .top
    case isFalse => exact hsame _
  | rub cs again =>
    cases cs with
    | nil => exact hwrite _
    | cons c cs => exact (hsame (.rub cs again)).putch c hclear
  | dec again => exact (hsame _).modifySecondary t _
  | echo cs c =>
    cases cs with
    | nil => exact hwrite _
    | cons x cs => exact (hsame (.echo cs c)).putch x hclear
  | store c =>
    show AllShow K (s.modifySecondary t (·.putch c)) ([.cooked t .top] ++ rest)
    exact (hsame .top).modifySecondary t _

end Cooked

namespace Frame.Spent

theorem hand_eq (h : f.Spent t) : f.hand t = [] := by
  cases f with
  | con t' nr pc =>
    cases pc with
    | interp c =>
      refine if_neg fun ht => ?_
      cases (h ht).2
    | _ => rfl
  | _ => rfl

omit [DecidableEq T] in
theorem fits (h : f.Spent t) (hold : f.Fits K t y.writeQ) (q : TtyQueue) : f.Fits K t q := by
  cases f with
  | con t' nr pc =>
    cases pc with
    | enter => exact fun ht => (h ht).1.trans_le (Nat.zero_le _)
    | test => exact fun ht => (h ht).1.trans_le (Nat.zero_le _)
    | interp c => exact fun ht => (h ht).1.trans_le (Nat.zero_le _)
    | take => exact fun ht => nomatch (h ht).2
    | inc c => exact fun ht => nomatch (h ht).2
  | pty src dst => exact hold
  | _ => trivial

end Frame.Spent

namespace TtyStruct.Shows

variable {nr nr' : ℕ} {pc pc' : Con} {c : BitVec 8}

/-- A call of `con_write` that holds no character goes on. -/
theorem goOn (h : y.Shows K t (f :: rest)) (hf : f.hand t = []) {g : Frame T}
    (hfits : g.Fits K t y.writeQ) (hhand : g.hand t = [])
    (halone : g.Holding t → ∀ x ∈ rest, x.Spent t) : y.Shows K t (g :: rest) := by
  refine ⟨h.sound, ?_, fun x hx => ?_, ?_⟩
  · rw [hands_cons, hhand, h.got, hands_cons, hf]
  · obtain rfl | hx := List.mem_cons.mp hx
    · exact hfits
    · exact h.fits x (List.mem_cons_of_mem _ hx)
  · exact List.pairwise_cons.mpr ⟨fun x hx hhold => halone hhold x hx,
      (List.pairwise_cons.mp h.alone).2⟩

/-- The second step of `GETCH`. -/
theorem incTail (h : y.Shows K t (.con t nr (.inc c) :: rest)) :
    ({ y with writeQ := y.writeQ.incTail } : TtyStruct).Shows K t
      (.con t nr (.interp c) :: rest) := by
  obtain ⟨halone, hpairs⟩ := List.pairwise_cons.mp h.alone
  have hspent : ∀ x ∈ rest, x.Spent t := fun x hx => halone x hx rfl
  obtain ⟨hle, hfront⟩ := h.fits _ List.mem_cons_self rfl
  have hempty : ¬ y.writeQ.ring.Empty := fun hempty => by
    rw [RingBuffer.empty_iff] at hempty
    omega
  have hcount : y.writeQ.incTail.ring.count + 1 = y.writeQ.ring.count :=
    RingBuffer.count_pop hempty
  -- the calls below hold nothing
  have hrest : hands t rest = [] := List.flatMap_eq_nil_iff.mpr fun x hx => (hspent x hx).hand_eq
  refine ⟨h.sound.incTail hempty, ?_, fun x hx => ?_, ?_⟩
  · have hgot := h.got
    rw [hands_cons, hrest] at hgot
    show y.writeQ.got ++ [y.writeQ.ring.front] =
      y.shown ++ ((if t = t then [c] else []) ++ hands t rest)
    rw [if_pos rfl, hfront, hgot, hrest]
    show y.shown ++ [] ++ [c] = y.shown ++ [c]
    rw [List.append_nil]
  · obtain rfl | hx := List.mem_cons.mp hx
    · intro _
      show nr ≤ y.writeQ.incTail.ring.count
      omega
    · exact (hspent x hx).fits (h.fits x (List.mem_cons_of_mem _ hx)) _
  · exact List.pairwise_cons.mpr ⟨fun x hx _ => hspent x hx, hpairs⟩

/-- The character in hand is interpreted. -/
theorem interpret (h : y.Shows K t (.con t nr (.interp c) :: rest)) :
    (Con.interpret y c).Shows K t (.con t nr .test :: rest) := by
  refine ⟨h.sound, ?_, fun x hx => ?_, ?_⟩
  · have hgot := h.got
    rw [hands_cons, Frame.hand, if_pos rfl, ← List.append_assoc] at hgot
    exact hgot
  · obtain rfl | hx := List.mem_cons.mp hx
    · exact h.fits (.con t nr (.interp c)) List.mem_cons_self
    · exact h.fits x (List.mem_cons_of_mem _ hx)
  · exact List.pairwise_cons.mpr ⟨fun _ _ hhold => absurd hhold id,
      (List.pairwise_cons.mp h.alone).2⟩

end TtyStruct.Shows

theorem Con.run_shows {nr : ℕ} {pc : Con} (h : AllShow K s (.con t nr pc :: rest))
    (hclear : (Frame.con t nr pc).Clear K s rest) :
    AllShow K (pc.run s t nr).1 ((pc.run s t nr).2 ++ rest) := by
  cases pc with
  | enter =>
    intro t' ht'
    refine (h t' ht').goOn rfl (fun ht => ?_) rfl fun hhold => absurd hhold id
    rw [ht]
  | test =>
    rw [Con.run]
    split
    case isTrue => exact h.replace (m := []) (fun _ => rfl) nofun
    case isFalse hnr =>
      intro t' ht'
      refine (h t' ht').goOn rfl (fun ht => ?_) rfl fun hhold => absurd hhold id
      have hle : nr ≤ (s.tty t').writeQ.ring.count := (h t' ht').fits _ List.mem_cons_self ht
      have hpos : nr ≠ 0 := (not_or.mp hnr).1
      omega
  | take =>
    intro t' ht'
    refine (h t' ht').goOn rfl (fun ht => ?_) rfl fun ht => ?_
    · subst ht
      exact ⟨(h t ht').fits _ List.mem_cons_self rfl, rfl⟩
    · subst ht
      exact hclear
  | inc c =>
    show AllShow K (s.modifyWrite t .incTail) (.con t nr (.interp c) :: rest)
    intro t' ht'
    by_cases heq : t' = t
    · subst heq
      have hself : ((s.modifyWrite t' .incTail).tty t') =
          { s.tty t' with writeQ := (s.tty t').writeQ.incTail } := Ttys.modify_tty_self _ _ _
      rw [hself]
      exact (h t' ht').incTail
    · have hother : (s.modifyWrite t .incTail).tty t' = s.tty t' := Ttys.modify_tty_of_ne heq _ _
      rw [hother]
      exact (h t' ht').goOn rfl (fun ht => absurd ht.symm heq) (if_neg (Ne.symm heq))
        fun ht => absurd ht.symm heq
  | interp c =>
    have hshow : AllShow K (s.modify t (Con.interpret · c)) (.con t nr .test :: rest) := by
      intro t' ht'
      by_cases heq : t' = t
      · subst heq
        rw [Ttys.modify_tty_self]
        exact (h t' ht').interpret
      · rw [Ttys.modify_tty_of_ne heq]
        exact (h t' ht').goOn (if_neg (Ne.symm heq)) (fun ht => absurd ht.symm heq) rfl
          fun hhold => absurd hhold id
    rw [Con.run]
    dsimp only
    split
    case isTrue =>
      intro t' ht'
      have hcons := hshow t' ht'
      refine ⟨hcons.sound, hcons.got, fun x hx => ?_, ?_⟩
      · obtain rfl | hx := List.mem_cons.mp hx
        · trivial
        · exact hcons.fits x hx
      · exact List.pairwise_cons.mpr ⟨fun _ _ hhold => absurd hhold id, hcons.alone⟩
    case isFalse => exact hshow

theorem ptyCopy_shows {src dst : T} (h : AllShow K s (.pty src dst :: rest)) :
    AllShow K (ptyCopy s src dst signal).1 ((ptyCopy s src dst signal).2 ++ rest) := by
  have hcooked : AllShow K s ([.cooked dst .top] ++ rest) :=
    h.replace (fun _ => rfl) (by simp [Frame.Plain])
  rw [ptyCopy]
  split
  case isTrue => exact hcooked
  split
  case isTrue =>
    split
    case isTrue => exact hcooked
    case isFalse =>
      intro t' ht'
      refine (h t' ht').replace rfl fun g hg => ?_
      obtain rfl | hg := List.mem_cons.mp hg
      · trivial
      · obtain rfl := List.mem_singleton.mp hg
        exact (h t' ht').fits (.pty src dst) List.mem_cons_self
  have hframes : AllShow K s
      ((if signal = true then [.cooked dst .top] else [.pty src dst]) ++ rest) := by
    split
    case isTrue => exact hcooked
    case isFalse => exact h
  -- the queue that a character is taken from is not a console's
  have htaken : AllShow K (s.modifyWrite src .incTail)
      ((if signal = true then [.cooked dst .top] else [.pty src dst]) ++ rest) :=
    AllShow.modify (g := fun y => { y with writeQ := y.writeQ.incTail }) hframes
      fun ht => absurd ht ((h src ht).fits _ List.mem_cons_self)
  dsimp only
  exact htaken.modifyRead dst _

theorem Write.run_shows {buf : List (BitVec 8)} {pc : Write}
    (h : AllShow K s (.write t buf pc :: rest)) (hclear : (Frame.write t buf pc).Clear K s rest) :
    AllShow K (pc.run K s t buf signal).1 ((pc.run K s t buf signal).2 ++ rest) := by
  have hdrop : AllShow K s rest := h.replace (m := []) (fun _ => rfl) nofun
  have hsame : ∀ (buf' : List (BitVec 8)) (pc' : Write), AllShow K s ([.write t buf' pc'] ++ rest) :=
    fun _ _ => h.replace (fun _ => rfl) (by simp [Frame.Plain])
  cases pc with
  | outer =>
    rw [Write.run]
    split
    case isTrue => exact hdrop
    split
    case isTrue => exact hsame _ _
    case isFalse => exact hsame _ _
  | asleep =>
    rw [Write.run]
    split
    case isTrue => exact hsame _ _
    case isFalse => exact hsame _ _
  | signal =>
    rw [Write.run]
    split
    case isTrue => exact hdrop
    case isFalse => exact hsame _ _
  | inner =>
    rw [Write.run]
    split
    case isTrue =>
      refine h.replace (fun _ => rfl) fun g hg t' => ?_
      obtain hg | hg := List.mem_append.mp hg
      · exact plain_write t' t g hg
      · obtain rfl := List.mem_singleton.mp hg
        trivial
    case isFalse => exact hsame _ _
  | fetch =>
    cases buf with
    | nil => exact hdrop
    | cons c cs =>
      rcases hpost : Write.post K (s.tty t).termios s.crFlag c with ⟨c', again, crFlag⟩
      simp only [Write.run, hpost]
      exact (hsame (if again = true then c :: cs else cs) .inner).putch c' hclear
  | after =>
    rw [Write.run]
    split
    case isTrue => exact hdrop
    case isFalse => exact hsame _ _

theorem Read.run_shows {nr minimum : ℕ} {buf : List (BitVec 8)} {pc : Read}
    (h : AllShow K s (.read t nr minimum buf pc :: rest)) :
    AllShow K (pc.run K s t nr minimum buf signal expired).1
      ((pc.run K s t nr minimum buf signal expired).2 ++ rest) := by
  have hdrop : AllShow K s rest := h.replace (m := []) (fun _ => rfl) nofun
  have hsame : ∀ nr' (buf' : List (BitVec 8)) (pc' : Read),
      AllShow K s ([.read t nr' minimum buf' pc'] ++ rest) :=
    fun _ _ _ => h.replace (fun _ => rfl) (by simp [Frame.Plain])
  cases pc with
  | outer =>
    rw [Read.run]
    split
    case isTrue => exact hdrop
    case isFalse =>
      refine h.replace (fun _ => rfl) fun g hg t' => ?_
      obtain hg | hg := List.mem_append.mp hg
      · exact plain_pull t' t g hg
      · obtain rfl := List.mem_singleton.mp hg
        trivial
  | test =>
    rw [Read.run]
    split
    case isTrue =>
      split
      case isTrue => exact hdrop
      case isFalse => exact hsame _ _ _
    case isFalse => exact hsame _ _ _
  | asleep => exact hsame _ _ _
  | take => exact (hsame _ _ _).modifySecondary t _
  | more c => exact hsame _ _ _
  | done =>
    rw [Read.run]
    split
    case isTrue => exact hdrop
    case isFalse => exact hsame _ _ _

theorem Frame.run_shows (h : AllShow K s (f :: rest)) (hclear : f.Clear K s rest) :
    AllShow K (f.run K s signal expired).1 ((f.run K s signal expired).2 ++ rest) := by
  cases f with
  | cooked t pc => exact Cooked.run_shows h hclear
  | con t nr pc => exact Con.run_shows h hclear
  | pty src dst => exact ptyCopy_shows h
  | write t buf pc => exact Write.run_shows h hclear
  | read t nr minimum buf pc => exact Read.run_shows h

namespace Terminals

variable {s s' : Terminals T} {e : TtyEvent T}

structure Shows (K : TtyTable T) (s : Terminals T) : Prop where
  shows : AllShow K s.ttys s.stack
  parked : ∀ f ∈ s.parked, f.Parks

omit [DecidableEq T] in
/-- A call that a process may be parked in takes from no console. -/
theorem plain_of_parks (h : f.Parks) (t : T) : f.Plain K t := by
  cases f with
  | write t' buf pc => trivial
  | read t' nr minimum buf pc => trivial
  | cooked t' pc => trivial
  | con t' nr pc => exact absurd h id
  | pty src dst => exact absurd h id

theorem Shows.step (h : s.Shows K) (hcan : s.Can K e) (hclear : s.Clear K e) :
    (s.step K e).Shows K := by
  obtain ⟨hshows, hparked⟩ := h
  have hidle : s.stack = [] → AllShow K s.ttys [] := fun hstack => hstack ▸ hshows
  cases e with
  | run signal expired =>
    cases hstack : s.stack with
    | nil => exact absurd hstack hcan
    | cons f rest =>
      rw [hstack] at hshows
      have hrun : AllShow K (f.run K s.ttys signal expired).1
          ((f.run K s.ttys signal expired).2 ++ rest) :=
        Frame.run_shows hshows (hclear f rest hstack)
      simp only [Terminals.step, hstack]
      exact ⟨hrun, hparked⟩
  | write t buf =>
    exact ⟨(hidle hcan).push (m := [.write t buf .outer]) (by simp [Frame.Plain]), hparked⟩
  | read t nr =>
    exact ⟨(hidle hcan).push (m := [.read t nr _ [] .outer]) (by simp [Frame.Plain]), hparked⟩
  | setTermios t m =>
    have hset : AllShow K (s.ttys.modify t fun y => { y with termios := m }) s.stack :=
      hshows.modify fun ht => (hshows t ht).congr rfl rfl
    exact ⟨hset, hparked⟩
  | flushRead t => exact ⟨hshows.modifyRead t _, hparked⟩
  | flushWrite t =>
    have hstack : s.stack = [] := hcan
    have hflush : AllShow K (s.ttys.modifyWrite t .flush) [] := by
      refine AllShow.modify (g := fun y => { y with writeQ := y.writeQ.flush }) (hidle hstack)
        fun ht => ?_
      have hself := hidle hstack t ht
      exact ⟨hself.sound.flush, hself.got, nofun, List.Pairwise.nil⟩
    refine ⟨?_, hparked⟩
    show AllShow K (s.ttys.modifyWrite t .flush) s.stack
    rw [hstack]
    exact hflush
  | flow t arg =>
    have hstack : s.stack = [] := hcan
    have hstopped : ∀ b : Bool, AllShow K (s.ttys.modify t fun y => { y with stopped := b })
        ((K.kind t).write t) := fun b =>
      List.append_nil ((K.kind t).write t) ▸ AllShow.push
        (AllShow.modify (hidle hstack) fun ht => (hidle hstack t ht).congr rfl rfl)
        fun g hg t' => plain_write t' t g hg
    have hput : ∀ c : BitVec 8, (c ≠ 0 → s.ttys.HasRoom K t) →
        AllShow K (if c ≠ 0 then s.ttys.modifyWrite t (·.putch c) else s.ttys) [] := by
      intro c hroom
      split
      case isTrue hc => exact (hidle hstack).putch c (hroom hc)
      case isFalse => exact hidle hstack
    cases arg with
    | TCOOFF => exact ⟨hstopped true, hparked⟩
    | TCOON => exact ⟨hstopped false, hparked⟩
    | TCIOFF => exact ⟨hput _ hclear, hparked⟩
    | TCION => exact ⟨hput _ hclear, hparked⟩
  | key t cs =>
    exact ⟨(hshows.modifyRead t _).push (m := [.cooked t .top]) (by simp [Frame.Plain]),
      hparked⟩
  | receive t c =>
    exact ⟨(hshows.modifyRead t _).push (m := [.cooked t .top]) (by simp [Frame.Plain]),
      hparked⟩
  | sent t =>
    -- a serial line is no console
    have hserial : K.kind t = .serial := hcan
    have hsent : AllShow K (s.ttys.modifyWrite t writeChar) s.stack :=
      AllShow.modify (g := fun y => { y with writeQ := writeChar y.writeQ }) hshows fun ht => by
        rw [hserial] at ht
        cases ht
    exact ⟨hsent, hparked⟩
  | park =>
    obtain ⟨f, hstack, hf⟩ := hcan
    refine ⟨?_, fun g hg => ?_⟩
    · rw [hstack] at hshows
      exact hshows.replace (m := []) (fun t => (plain_of_parks (K := K) hf t).hand_eq) nofun
    · obtain hg | hg := List.mem_append.mp hg
      · rw [hstack, List.mem_singleton] at hg
        exact hg ▸ hf
      · exact hparked g hg
  | resume i =>
    obtain ⟨hstack, hi⟩ := hcan
    refine ⟨?_, fun g hg => hparked g (List.mem_of_mem_eraseIdx hg)⟩
    show AllShow K s.ttys (s.parked[i]?.toList)
    rw [List.getElem?_eq_getElem hi]
    refine (hidle hstack).push (m := [_]) fun g hg t => ?_
    obtain rfl := List.mem_singleton.mp hg
    exact plain_of_parks (hparked _ (List.getElem_mem hi)) t

end Terminals

/-- `n` steps of the call in progress. -/
def Terminals.runs (K : TtyTable T) (s : Terminals T) : ℕ → Terminals T
  | 0 => s
  | n + 1 => runs K (s.step K (.run false false)) n

end Tty
