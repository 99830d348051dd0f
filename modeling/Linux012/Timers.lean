/-
Timers (`add_timer` and `do_timer` of kernel/sched.c).

* `TimerList` — the table `timer_list`; `settle` and `adjust`, the parts of `add_timer` that
  put a new timer in its place;
* `Timers` — the table, the calls of `do_timer` in progress and whether interrupts are off;
* `timers` — every timer is called at its tick, as long as no tick arrives while an expired
  timer waits for its call.
-/
import Linux012.Runs
import Linux012.Links
import Linux012.Deltas
import Mathlib.Algebra.Order.Group.Int
import Mathlib.Data.Fintype.Card

namespace Sched

open Function (update)
open Links (IsList)

def TIME_REQUESTS : ℕ := 64

abbrev Slot := Fin TIME_REQUESTS

variable {F : Type}

/-- The table of timers. -/
structure TimerList (F : Type) where
  /-- null in a free slot -/
  fn : Slot → Option F
  /-- the ticks from the timer before -/
  jiffies : Slot → ℤ
  next : Slot → Option Slot

namespace TimerList

/-- `p` and `q` exchange their contents, where `q` comes first. -/
def swap (t : TimerList F) (p q : Slot) : TimerList F where
  fn := update (update t.fn p (t.fn q)) q (t.fn p)
  jiffies := update (update t.jiffies p (t.jiffies q)) q (t.jiffies p - t.jiffies q)
  next := t.next

/-- The loop of `add_timer`, and the slot where it ends. -/
def settle : ℕ → TimerList F → Slot → Option (TimerList F × Slot)
  | 0, _, _ => none
  | fuel + 1, t, p =>
    match t.next p with
    | none => some (t, p)
    | some q => if t.jiffies q < t.jiffies p then settle fuel (t.swap p q) q else some (t, p)

/-- The timer after a new one. -/
def adjust (t : TimerList F) (p : Slot) : TimerList F :=
  match t.next p with
  | none => t
  | some q =>
    if t.jiffies p ≤ t.jiffies q then
      { t with jiffies := update t.jiffies q (t.jiffies q - t.jiffies p) }
    else t

/-- The first free slot. -/
def findFree (t : TimerList F) : Option Slot := (List.finRange TIME_REQUESTS).find? fun p =>
  (t.fn p).isNone

def put (t : TimerList F) (p : Slot) (fn : F) (jiffies : ℤ) (next : Option Slot) :
    TimerList F where
  fn := update t.fn p (some fn)
  jiffies := update t.jiffies p jiffies
  next := update t.next p next

/-- `p->jiffies--`. -/
def decrement (t : TimerList F) (p : Slot) : TimerList F :=
  { t with jiffies := update t.jiffies p (t.jiffies p - 1) }

/-- `p->fn = NULL`. -/
def free (t : TimerList F) (p : Slot) : TimerList F := { t with fn := update t.fn p none }

/-- The timers of a list of slots. -/
def entries (t : TimerList F) (l : List Slot) : List (Option F × ℤ) :=
  l.map fun p => (t.fn p, t.jiffies p)

end TimerList

structure Timers (F : Type) where
  list : TimerList F
  /-- `next_timer` -/
  next : Option Slot
  /-- the calls of `do_timer` in progress, the latest first, and whether each is in a call of
  a timer's `fn` -/
  frames : List Bool
  /-- interrupts are off -/
  masked : Bool
  /-- the ticks so far, the timers added, with the ticks when they are due, and those called,
  with the ticks when they were (not in the source) -/
  ticks : ℤ
  added : List (Option F × ℤ)
  called : List (Option F × ℤ)

namespace Timers

/-- `add_timer`; none is a panic. -/
def addTimer (s : Timers F) (jiffies : ℤ) : Option F → Option (Timers F)
  | none => some s
  | some fn =>
    if jiffies ≤ 0 then
      some { s with
        masked := false
        added := (some fn, s.ticks) :: s.added
        called := (some fn, s.ticks) :: s.called }
    else do
      let p ← s.list.findFree
      let (list, q) ← (s.list.put p fn jiffies s.next).settle (TIME_REQUESTS + 1) p
      some { s with
        list := list.adjust q
        next := some p
        masked := false
        added := (some fn, s.ticks + jiffies) :: s.added }

/-- The interrupt and the start of `do_timer`, up to the loop. -/
def tick (s : Timers F) : Timers F :=
  { s with
    list := match s.next with
      | none => s.list
      | some p => s.list.decrement p
    frames := false :: s.frames
    masked := true
    ticks := s.ticks + 1 }

/-- The timer at the head has expired. -/
def Expired (s : Timers F) : Prop := ∃ p, s.next = some p ∧ s.list.jiffies p ≤ 0

/-- The loop of `do_timer`, up to the call, in one step: a tick among its stores is one that
arrives while the timer waits. -/
def expire (s : Timers F) (p : Slot) : Timers F :=
  { s with
    list := s.list.free p
    next := s.list.next p
    frames := true :: s.frames.tail
    called := (s.list.fn p, s.ticks) :: s.called }

end Timers

inductive TimerEvent (F : Type) where
  | add (jiffies : ℤ) (fn : Option F)
  | tick
  | expire
  /-- `fn` comes back -/
  | back
  /-- `do_timer` ends its loop, and the interrupt is over -/
  | leave

/-- What each step needs of the calls in progress. A timer is added by a process, or by the
`fn` of the latest tick; `jiffies` is positive. -/
def TimerEvent.Called (s : Timers F) : TimerEvent F → Prop
  | .add jiffies _ => 0 < jiffies ∧ s.frames.head? ≠ some false
  | .tick => s.masked = false
  | .expire => s.frames.head? = some false ∧ s.Expired
  | .back => s.frames.head? = some true
  | .leave => s.frames.head? = some false ∧ ¬ s.Expired

instance (s : Timers F) : Decidable s.Expired := inferInstanceAs (Decidable (∃ _, _))

instance (s : Timers F) : (e : TimerEvent F) → Decidable (e.Called s)
  | .add _ _ => inferInstanceAs (Decidable (_ ∧ _))
  | .tick => inferInstanceAs (Decidable (_ = _))
  | .expire => inferInstanceAs (Decidable (_ ∧ _))
  | .back => inferInstanceAs (Decidable (_ = _))
  | .leave => inferInstanceAs (Decidable (_ ∧ _))

def Timers.step (s : Timers F) : TimerEvent F → Option (Timers F)
  | .add jiffies fn => s.addTimer jiffies fn
  | .tick => some s.tick
  | .expire => s.next.map s.expire
  | .back => some { s with frames := false :: s.frames.tail }
  | .leave => some { s with frames := s.frames.tail, masked := false }

def Timers.nextState (s : Timers F) (e : TimerEvent F) : Option (Timers F) :=
  if e.Called s then s.step e else none

/-- The runs from an empty table. -/
def timerRuns (F : Type) : System (Timers F) (TimerEvent F) where
  init s := (∀ p, s.list.fn p = none) ∧ s.next = none ∧ s.frames = [] ∧ s.masked = false ∧
    s.added = [] ∧ s.called = []
  step s e s' := s.nextState e = some s'

/-- No tick arrives while an expired timer waits for its call. -/
def Timers.Prompt (s : Timers F) : TimerEvent F → Prop
  | .tick => ¬ s.Expired
  | _ => True

instance (s : Timers F) : (e : TimerEvent F) → Decidable (s.Prompt e)
  | .tick => inferInstanceAs (Decidable (¬ _))
  | .add _ _ => isTrue trivial
  | .expire => isTrue trivial
  | .back => isTrue trivial
  | .leave => isTrue trivial

namespace TimerList

variable {t t' : TimerList F} {p q x : Slot} {l : List Slot} {fuel : ℕ}

@[simp] theorem put_fn_self (fn : F) (jiffies : ℤ) (next : Option Slot) :
    (t.put p fn jiffies next).fn p = some fn := Function.update_self _ _ _

@[simp] theorem put_jiffies_self (fn : F) (jiffies : ℤ) (next : Option Slot) :
    (t.put p fn jiffies next).jiffies p = jiffies := Function.update_self _ _ _

@[simp] theorem put_next_self (fn : F) (jiffies : ℤ) (next : Option Slot) :
    (t.put p fn jiffies next).next p = next := Function.update_self _ _ _

theorem put_fn_of_ne (hx : x ≠ p) (fn : F) (jiffies : ℤ) (next : Option Slot) :
    (t.put p fn jiffies next).fn x = t.fn x := Function.update_of_ne hx _ _

theorem put_jiffies_of_ne (hx : x ≠ p) (fn : F) (jiffies : ℤ) (next : Option Slot) :
    (t.put p fn jiffies next).jiffies x = t.jiffies x := Function.update_of_ne hx _ _

theorem entries_congr (hfn : ∀ x ∈ l, t'.fn x = t.fn x)
    (hjiffies : ∀ x ∈ l, t'.jiffies x = t.jiffies x) : t'.entries l = t.entries l :=
  List.map_congr_left fun x hx => by rw [hfn x hx, hjiffies x hx]

theorem swap_fn_of_ne (hp : x ≠ p) (hq : x ≠ q) : (t.swap p q).fn x = t.fn x :=
  (Function.update_of_ne hq _ _).trans (Function.update_of_ne hp _ _)

theorem swap_jiffies_of_ne (hp : x ≠ p) (hq : x ≠ q) : (t.swap p q).jiffies x = t.jiffies x :=
  (Function.update_of_ne hq _ _).trans (Function.update_of_ne hp _ _)

theorem adjust_next (t : TimerList F) (p : Slot) : (t.adjust p).next = t.next := by
  rw [adjust]
  split
  · rfl
  · split
    · rfl
    · rfl

/-- The loop ends, and with the change of the timer after it the new timer is inserted. -/
theorem settle_spec (h : IsList t.next (t.next p) l) (hp : p ∉ l) (hfuel : l.length < fuel) :
    ∃ t' q, settle fuel t p = some (t', q) ∧ t'.next = t.next ∧
      (∀ x ∉ p :: l, (t'.adjust q).fn x = t.fn x ∧ (t'.adjust q).jiffies x = t.jiffies x) ∧
      (t'.adjust q).entries (p :: l) = Deltas.insert (t.fn p) (t.jiffies p) (t.entries l) := by
  -- the list behind `p` gets shorter with every exchange
  induction l generalizing t p fuel with
  | nil =>
    obtain ⟨fuel, rfl⟩ : ∃ n, fuel = n + 1 := ⟨fuel - 1, by omega⟩
    have hnext : t.next p = none := h
    have hadjust : t.adjust p = t := by rw [adjust, hnext]
    refine ⟨t, p, by rw [settle, hnext], rfl, ?_, ?_⟩
    · rw [hadjust]
      exact fun _ _ => ⟨rfl, rfl⟩
    · rw [hadjust]
      rfl
  | cons q l ih =>
    obtain ⟨fuel, rfl⟩ : ∃ n, fuel = n + 1 := ⟨fuel - 1, by omega⟩
    rw [List.length_cons] at hfuel
    have hnodup := Links.IsList.nodup h
    obtain ⟨hnext, hrest⟩ := h
    obtain ⟨hpq, hpl⟩ := not_or.mp (mt List.mem_cons.mpr hp)
    obtain ⟨hql, -⟩ := List.nodup_cons.mp hnodup
    rw [settle, entries, List.map_cons, Deltas.insert]
    simp only [hnext]
    split
    case isTrue hlt =>
      have hentries : (t.swap p q).entries l = t.entries l :=
        entries_congr
          (fun x hx => swap_fn_of_ne (ne_of_mem_of_not_mem hx hpl) (ne_of_mem_of_not_mem hx hql))
          fun x hx => swap_jiffies_of_ne (ne_of_mem_of_not_mem hx hpl)
            (ne_of_mem_of_not_mem hx hql)
      obtain ⟨t', r, hsettle, hnext', hsame, hentries'⟩ :=
        ih (t := t.swap p q) hrest hql (Nat.lt_of_succ_lt_succ hfuel)
      refine ⟨t', r, hsettle, hnext', fun x hx => ?_, ?_⟩
      · simp only [List.mem_cons, not_or] at hx
        have hx' := hsame x (by simp [hx.2.1, hx.2.2])
        rw [hx'.1, hx'.2, swap_fn_of_ne hx.1 hx.2.1, swap_jiffies_of_ne hx.1 hx.2.1]
        exact ⟨rfl, rfl⟩
      · -- `p` now holds what `q` held
        have hp' := hsame p hp
        have hfnp : (t.swap p q).fn p = t.fn q := by simp [swap, hpq]
        have hjp : (t.swap p q).jiffies p = t.jiffies q := by simp [swap, hpq]
        have hfnq : (t.swap p q).fn q = t.fn p := by simp [swap]
        have hjq : (t.swap p q).jiffies q = t.jiffies p - t.jiffies q := by simp [swap]
        rw [hfnq, hjq, hentries] at hentries'
        rw [entries, List.map_cons, hp'.1, hp'.2, hfnp, hjp]
        exact congrArg _ hentries'
    case isFalse hle =>
      have hadjust : t.adjust p =
          { t with jiffies := update t.jiffies q (t.jiffies q - t.jiffies p) } := by
        rw [adjust, hnext]
        exact if_pos (not_lt.mp hle)
      refine ⟨t, p, rfl, rfl, fun x hx => ?_, ?_⟩
      · simp only [List.mem_cons, not_or] at hx
        rw [hadjust]
        exact ⟨rfl, Function.update_of_ne hx.2.1 _ _⟩
      · have hrest' : (t.adjust p).entries l = t.entries l := by
          rw [hadjust]
          exact entries_congr (fun _ _ => rfl) fun x hx =>
            Function.update_of_ne (ne_of_mem_of_not_mem hx hql) _ _
        rw [entries, List.map_cons, List.map_cons, ← entries, hrest', hadjust]
        simp [hpq, entries]

end TimerList

namespace Timers

variable {s s' : Timers F} {l : List Slot} {p : Slot} {e : TimerEvent F}

/-- The timers that wait, with the ticks when they are due. -/
def due (s : Timers F) (l : List Slot) : List (Option F × ℤ) :=
  Deltas.sums s.ticks (s.list.entries l)

structure Valid (s : Timers F) (l : List Slot) : Prop where
  list : IsList s.list.next s.next l
  used : ∀ p, p ∈ l ↔ s.list.fn p ≠ none
  nonneg : ∀ e ∈ s.list.entries l, 0 ≤ e.2
  /-- every timer was called when it was due, or waits -/
  kept : s.added.Perm (s.called ++ s.due l)
  /-- between the ticks no timer has expired -/
  idle : s.frames = [] → ∀ e, (s.list.entries l).head? = some e → 0 < e.2

theorem Valid.nil (h : (timerRuns F).init s) : s.Valid [] := by
  obtain ⟨hfn, hnext, -, -, hadded, hcalled⟩ := h
  refine ⟨hnext, fun p => ?_, fun _ he => absurd he List.not_mem_nil, ?_, fun _ _ he => ?_⟩
  · simp [hfn]
  · rw [hadded, hcalled]
    exact List.Perm.nil
  · cases he

/-- A timer at the head that has not expired has ticks left. -/
theorem Valid.head_pos (h : s.Valid l) (hexp : ¬ s.Expired) :
    ∀ e, (s.list.entries l).head? = some e → 0 < e.2 := by
  intro e he
  cases l with
  | nil => cases he
  | cons p l =>
    cases he
    exact not_le.mp fun hle => hexp ⟨p, h.list.1, hle⟩

/-- All timers are due after the first of them. -/
theorem Valid.lt_due (h : s.Valid l) (hpos : ∀ e, (s.list.entries l).head? = some e → 0 < e.2) :
    ∀ e ∈ s.due l, s.ticks < e.2 := by
  cases l with
  | nil => exact fun _ he => absurd he List.not_mem_nil
  | cons p l =>
    have hlt : s.ticks < s.ticks + s.list.jiffies p := lt_add_of_pos_right _ (hpos _ rfl)
    rw [due, TimerList.entries, List.map_cons, Deltas.sums, List.forall_mem_cons]
    refine ⟨hlt, fun e he => hlt.trans_le (Deltas.le_sums (fun e' he' => ?_) e he)⟩
    exact h.nonneg e' (List.mem_cons_of_mem _ he')

theorem Valid.length_le (h : s.Valid l) : l.length ≤ TIME_REQUESTS := by
  simpa using h.list.nodup.length_le_card

/-- The timers added and not yet called are those of the list. -/
theorem Valid.outstanding (h : s.Valid l) : s.added.length = s.called.length + l.length := by
  have hlen : ∀ (a : ℤ) (es : List (Option F × ℤ)), (Deltas.sums a es).length = es.length := by
    intro a es
    induction es generalizing a with
    | nil => rfl
    | cons e es ih => rw [Deltas.sums, List.length_cons, List.length_cons, ih]
  rw [h.kept.length_eq, List.length_append, due, hlen, TimerList.entries, List.length_map]

/-- A table with fewer timers than slots has a free one. -/
theorem Valid.findFree (h : s.Valid l)
    (hroom : s.added.length < s.called.length + TIME_REQUESTS) :
    ∃ p, s.list.findFree = some p := by
  rw [h.outstanding] at hroom
  cases hfree : s.list.findFree with
  | some p => exact ⟨p, rfl⟩
  | none =>
    rw [TimerList.findFree, List.find?_eq_none] at hfree
    have hall : ∀ p, p ∈ l := fun p => (h.used p).mpr fun hnone =>
      hfree p (List.mem_finRange p) (by rw [hnone]; rfl)
    have hcard := Fintype.card_le_of_surjective l.get fun p => List.mem_iff_get.mp (hall p)
    rw [Fintype.card_fin, Fintype.card_fin] at hcard
    omega

theorem Valid.add (h : s.Valid l) {jiffies : ℤ} (hpos : 0 < jiffies) {f : F}
    (hp : s.list.findFree = some p) : ∃ s', s.addTimer jiffies (some f) = some s' ∧
      s'.Valid (p :: l) := by
  have hfree : s.list.fn p = none := by simpa using List.find?_some hp
  have hpl : p ∉ l := fun hmem => (h.used p).mp hmem hfree
  have hlist : IsList (s.list.put p f jiffies s.next).next
      ((s.list.put p f jiffies s.next).next p) l := by
    rw [TimerList.put_next_self]
    exact h.list.update hpl _
  have hentries : (s.list.put p f jiffies s.next).entries l = s.list.entries l :=
    TimerList.entries_congr
      (fun x hx => TimerList.put_fn_of_ne (ne_of_mem_of_not_mem hx hpl) _ _ _)
      fun x hx => TimerList.put_jiffies_of_ne (ne_of_mem_of_not_mem hx hpl) _ _ _
  obtain ⟨t, q, hsettle, hnext, hsame, hinsert⟩ := TimerList.settle_spec hlist hpl
    (Nat.lt_succ_of_le h.length_le)
  rw [TimerList.put_fn_self, TimerList.put_jiffies_self, hentries] at hinsert
  refine ⟨⟨t.adjust q, some p, s.frames, false, s.ticks,
    (some f, s.ticks + jiffies) :: s.added, s.called⟩, ?_, ?_⟩
  · rw [addTimer, if_neg (not_le.mpr hpos), hp]
    exact congrArg (· >>= _) hsettle
  constructor
  · refine ⟨rfl, ?_⟩
    show IsList (t.adjust q).next ((t.adjust q).next p) l
    rw [TimerList.adjust_next, hnext]
    exact hlist
  · intro x
    by_cases hx : x ∈ p :: l
    · -- the slots of the list hold the old timers and the new one
      have hsome : ∀ e ∈ (t.adjust q).entries (p :: l), e.1 ≠ none := by
        rw [hinsert]
        refine Deltas.insert_forall (P := (· ≠ none)) (Option.some_ne_none f) fun e he => ?_
        obtain ⟨y, hy, rfl⟩ := List.mem_map.mp he
        exact (h.used y).mp hy
      exact iff_of_true hx (hsome _ (List.mem_map_of_mem hx))
    · have hne := List.ne_of_not_mem_cons hx
      refine iff_of_false hx (not_not.mpr ?_)
      show (t.adjust q).fn x = none
      rw [(hsame x hx).1, TimerList.put_fn_of_ne hne]
      by_contra hused
      exact List.not_mem_of_not_mem_cons hx ((h.used x).mpr hused)
  · show ∀ e ∈ (t.adjust q).entries (p :: l), 0 ≤ e.2
    rw [hinsert]
    exact Deltas.insert_nonneg _ hpos.le h.nonneg
  · -- the new timer is due `jiffies` ticks from now
    show ((some f, s.ticks + jiffies) :: s.added).Perm
      (s.called ++ Deltas.sums s.ticks ((t.adjust q).entries (p :: l)))
    rw [hinsert]
    have hdue := Deltas.sums_insert (some f) s.ticks jiffies (s.list.entries l)
    exact (h.kept.cons _).trans (List.perm_middle.symm.trans (hdue.symm.append_left s.called))
  · intro hframes
    show ∀ e, ((t.adjust q).entries (p :: l)).head? = some e → 0 < e.2
    rw [hinsert]
    exact Deltas.insert_head_pos _ hpos (h.idle hframes)

/-- A tick takes one from the first difference, and so from all times left. -/
theorem Valid.tick (h : s.Valid l) (hexp : ¬ s.Expired) : s.tick.Valid l := by
  cases l with
  | nil =>
    have hnext : s.next = none := h.list
    have hlist : s.tick.list = s.list := by simp only [Timers.tick, hnext]
    refine ⟨hnext, ?_, fun _ he => absurd he List.not_mem_nil, h.kept, nofun⟩
    rw [hlist]
    exact h.used
  | cons p l =>
    obtain ⟨hnext, hrest⟩ := h.list
    have hpl : p ∉ l := (List.nodup_cons.mp h.list.nodup).1
    have hlist : s.tick.list = s.list.decrement p := by simp only [Timers.tick, hnext]
    have hjiffies : (s.list.decrement p).jiffies p = s.list.jiffies p - 1 :=
      Function.update_self _ _ _
    have hentries : s.tick.list.entries (p :: l) =
        (s.list.fn p, s.list.jiffies p - 1) :: s.list.entries l := by
      have hl : s.tick.list.entries l = s.list.entries l := by
        rw [hlist]
        exact TimerList.entries_congr (fun _ _ => rfl) fun x hx =>
          Function.update_of_ne (ne_of_mem_of_not_mem hx hpl) _ _
      rw [TimerList.entries, List.map_cons, ← TimerList.entries, hl, hlist, hjiffies]
      rfl
    have hpos : 0 < s.list.jiffies p := h.head_pos hexp _ rfl
    refine ⟨⟨hnext, ?_⟩, ?_, ?_, ?_, nofun⟩
    · rw [hlist]
      exact hrest
    · rw [hlist]
      exact h.used
    · rw [hentries, List.forall_mem_cons]
      exact ⟨Int.le_sub_one_of_lt hpos, fun e he => h.nonneg e (List.mem_cons_of_mem _ he)⟩
    · rw [due, hentries]
      exact h.kept.trans (List.Perm.of_eq (congrArg _
        (Deltas.sums_shift s.ticks 1 (s.list.fn p, s.list.jiffies p) _).symm))

/-- The timer that is called is due at this tick. -/
theorem Valid.expire (h : s.Valid (p :: l)) (hle : s.list.jiffies p ≤ 0) :
    (s.expire p).Valid l := by
  obtain ⟨hnext, hrest⟩ := h.list
  have hpl : p ∉ l := (List.nodup_cons.mp h.list.nodup).1
  have hzero : s.list.jiffies p = 0 := le_antisymm hle (h.nonneg _ List.mem_cons_self)
  have hentries : (s.expire p).list.entries l = s.list.entries l :=
    TimerList.entries_congr
      (fun x hx => Function.update_of_ne (ne_of_mem_of_not_mem hx hpl) _ _) fun _ _ => rfl
  refine ⟨hrest, fun x => ?_, ?_, ?_, nofun⟩
  · by_cases hx : x = p
    · subst hx
      have hfn : (s.expire x).list.fn x = none := Function.update_self _ _ _
      exact iff_of_false hpl (not_not.mpr hfn)
    · have hfn : (s.expire p).list.fn x = s.list.fn x := Function.update_of_ne hx _ _
      rw [hfn, ← h.used x, List.mem_cons, or_iff_right hx]
  · rw [hentries]
    exact fun e he => h.nonneg e (List.mem_cons_of_mem _ he)
  · have hdue : s.due (p :: l) = (s.list.fn p, s.ticks) :: s.due l := by
      rw [due, TimerList.entries, List.map_cons, Deltas.sums, hzero, add_zero]
      rfl
    have hkept := h.kept
    rw [hdue] at hkept
    show s.added.Perm (((s.list.fn p, s.ticks) :: s.called) ++ (s.expire p).due l)
    rw [due, hentries]
    exact hkept.trans List.perm_middle

theorem Valid.step (h : s.Valid l) (hcalled : e.Called s) (hprompt : s.Prompt e)
    (hs : s.step e = some s') : ∃ l', s'.Valid l' := by
  cases e with
  | add jiffies fn =>
    obtain ⟨hpos, -⟩ := hcalled
    cases fn with
    | none =>
      cases hs
      exact ⟨l, h⟩
    | some fn =>
      rw [Timers.step] at hs
      cases hp : s.list.findFree with
      | none =>
        rw [addTimer, if_neg (not_le.mpr hpos), hp] at hs
        cases hs
      | some p =>
        obtain ⟨s₁, hs₁, hvalid⟩ := h.add hpos (f := fn) hp
        obtain rfl : s₁ = s' := Option.some.inj (hs₁.symm.trans hs)
        exact ⟨p :: l, hvalid⟩
  | tick =>
    cases hs
    exact ⟨l, h.tick hprompt⟩
  | expire =>
    obtain ⟨-, p, hnext, hle⟩ := hcalled
    rw [Timers.step, hnext] at hs
    cases hs
    cases l with
    | nil => exact absurd (hnext.symm.trans h.list) (Option.some_ne_none p)
    | cons q l =>
      obtain rfl : p = q := Option.some.inj (hnext.symm.trans h.list.1)
      exact ⟨l, h.expire hle⟩
  | back =>
    cases hs
    exact ⟨l, h.list, h.used, h.nonneg, h.kept, nofun⟩
  | leave =>
    cases hs
    exact ⟨l, h.list, h.used, h.nonneg, h.kept, fun _ => h.head_pos hcalled.2⟩

theorem valid_of_reach (h : (timerRuns F).Reach Prompt s) : ∃ l, s.Valid l := by
  refine h.invariant (I := fun s => ∃ l, s.Valid l) (fun s hinit => ⟨[], .nil hinit⟩) ?_
  rintro s e s' ⟨l, hl⟩ hprompt hs
  change s.nextState e = some s' at hs
  rw [nextState] at hs
  split at hs
  case isTrue hcalled => exact hl.step hcalled hprompt hs
  case isFalse => cases hs

/-- The list holds the used slots; every timer added was called at the tick when it was due, or
waits; the times left of those that wait, the sums of the differences, are in order and none is
past, and none has expired between the ticks. -/
def OnTime (s : Timers F) : Prop :=
  ∃ l, IsList s.list.next s.next l ∧ (∀ p, p ∈ l ↔ s.list.fn p ≠ none) ∧
    s.added.Perm (s.called ++ s.due l) ∧ (s.due l).Pairwise (fun e e' => e.2 ≤ e'.2) ∧
    (∀ e ∈ s.due l, s.ticks ≤ e.2) ∧ (s.frames = [] → ∀ e ∈ s.due l, s.ticks < e.2)

end Timers

/-- In every run in which no tick arrives while an expired timer waits for its call, every timer
is called once, at its tick, and a timer can be added as long as there are fewer than 64. -/
theorem timers (s : Timers F) (h : (timerRuns F).Reach Timers.Prompt s) :
    s.OnTime ∧ ∀ jiffies fn, s.added.length < s.called.length + TIME_REQUESTS →
      (s.addTimer jiffies fn).isSome := by
  obtain ⟨l, hl⟩ := Timers.valid_of_reach h
  refine ⟨⟨l, hl.list, hl.used, hl.kept, Deltas.sums_sorted hl.nonneg,
    Deltas.le_sums hl.nonneg, fun hframes => hl.lt_due (hl.idle hframes)⟩, ?_⟩
  intro jiffies fn hroom
  cases fn with
  | none => rfl
  | some fn =>
    by_cases hpos : 0 < jiffies
    · obtain ⟨p, hp⟩ := hl.findFree hroom
      obtain ⟨s', hs', -⟩ := hl.add hpos (f := fn) hp
      rw [hs']
      rfl
    · rw [Timers.addTimer, if_pos (not_lt.mp hpos)]
      rfl

/-- No timer, at tick 0. -/
def noTimers : Timers ℕ where
  list := ⟨fun _ => none, fun _ => 0, fun _ => none⟩
  next := none
  frames := []
  masked := false
  ticks := 0
  added := []
  called := []

theorem noTimers_init : (timerRuns ℕ).init noTimers := ⟨fun _ => rfl, rfl, rfl, rfl, rfl, rfl⟩

/-- Two timers, each called at its tick; the first adds a third. -/
def promptRun : List (TimerEvent ℕ) :=
  [.add 2 (some 8), .add 1 (some 7), .tick, .expire, .add 1 (some 9), .back, .leave, .tick]

theorem timers_prompt : ∃ s, System.runOf (System.guarded Timers.Prompt Timers.nextState)
    promptRun noTimers = some s ∧ s.called = [(some 7, 1)] ∧ s.OnTime := by
  have hrun : (System.runOf (System.guarded Timers.Prompt Timers.nextState) promptRun
      noTimers).any (fun s => decide (s.called = [(some 7, 1)])) = true := by
    decide +kernel
  obtain ⟨s, hs, hcalled⟩ := (Option.any_eq_true _ _).mp hrun
  have hreach : (timerRuns ℕ).Reach Timers.Prompt s :=
    .of_guarded (fun _ _ _ h => h) (.init noTimers_init) hs
  exact ⟨s, hs, of_decide_eq_true hcalled, (timers s hreach).1⟩

/-- Two timers expire at one tick, and the first of them adds a third. -/
def nestedRun : List (TimerEvent ℕ) :=
  [.add 1 (some 8), .add 1 (some 7), .tick, .expire, .add 5 (some 9), .tick, .expire]

/-- `add_timer` has enabled the interrupts, and the second timer is called a tick late. -/
theorem nested_tick_late : ¬ ∀ s, (timerRuns ℕ).Reachable s → s.OnTime := by
  have hrun : (System.runOf Timers.nextState nestedRun noTimers).any (fun s =>
      decide (s.called = [(some 8, 2), (some 7, 1)] ∧
        s.added = [(some 9, 6), (some 7, 1), (some 8, 1)])) = true := by
    decide +kernel
  obtain ⟨s, hs, hlogs⟩ := (Option.any_eq_true _ _).mp hrun
  obtain ⟨hcalled, hadded⟩ := of_decide_eq_true hlogs
  have hreach : (timerRuns ℕ).Reachable s :=
    .of_runOf (fun _ _ _ h => h) (fun _ _ _ => trivial) (.init noTimers_init) hs
  intro h
  obtain ⟨l, -, -, hkept, -⟩ := h s hreach
  have hmem : (some 8, (2 : ℤ)) ∈ s.added := by
    rw [hkept.mem_iff, hcalled]
    exact List.mem_cons_self
  rw [hadded] at hmem
  revert hmem
  decide

end Sched
