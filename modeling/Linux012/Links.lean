/-
Lists threaded through a table of records by a link in each record.

* `Links.Seg next a l b` — following `next` from `a` one meets the records of `l`,
  in this order, and is then at `b`; `Links.IsList next a l` when `b` is the end;
* `IsList.unique`, `IsList.nodup` — a start determines its list, and no record
  stands twice in it;
* `Seg.congr`, `Seg.append_iff`, `IsList.insert`, `IsList.unlink` — the lists after stores;
* `thread` — equal parts of a block of storage linked in their order;
* `findFrom` — the first record with a property, with the one before it;
* `Dll next prev a l` — the same with a link back in each record, and
  `Dll.push`, `Dll.append`, `Dll.remove`.
-/
import Mathlib.Data.List.Basic
import Mathlib.Logic.Function.Basic

universe u

namespace Links

open Function (update)

variable {α : Type u} {next next' : α → Option α} {a b c : Option α} {x y i : α} {l l' : List α}

/-- From `a` the links lead over the records of `l` to `b`. -/
def Seg (next : α → Option α) : Option α → List α → Option α → Prop
  | a, [], b => a = b
  | a, x :: l, b => a = some x ∧ Seg next (next x) l b

/-- The records from `a` on are those of `l`. -/
abbrev IsList (next : α → Option α) (a : Option α) (l : List α) : Prop := Seg next a l none

instance [DecidableEq α] : (a : Option α) → (l : List α) → (b : Option α) →
    Decidable (Seg next a l b)
  | a, [], b => inferInstanceAs (Decidable (a = b))
  | a, x :: l, b =>
    have : Decidable (Seg next (next x) l b) := instDecidableSegOfDecidableEq (next x) l b
    inferInstanceAs (Decidable (a = some x ∧ Seg next (next x) l b))

@[simp] theorem seg_nil : Seg next a [] b ↔ a = b := Iff.rfl

@[simp] theorem seg_cons : Seg next a (x :: l) b ↔ a = some x ∧ Seg next (next x) l b := Iff.rfl

theorem Seg.append_iff : Seg next a (l ++ l') b ↔ ∃ c, Seg next a l c ∧ Seg next c l' b := by
  induction l generalizing a with
  | nil => simp
  | cons x l ih => simp [ih, and_assoc]

/-- A store to a record that is not in the list changes nothing. -/
theorem Seg.congr (h : Seg next a l b) (heq : ∀ x ∈ l, next' x = next x) : Seg next' a l b := by
  induction l generalizing a with
  | nil => exact h
  | cons x l ih =>
    refine ⟨h.1, ?_⟩
    rw [heq x List.mem_cons_self]
    exact ih h.2 fun y hy => heq y (List.mem_cons_of_mem _ hy)

theorem Seg.update [DecidableEq α] (h : Seg next a l b) (hi : i ∉ l) (v : Option α) :
    Seg (update next i v) a l b :=
  h.congr fun _ hx => Function.update_of_ne (ne_of_mem_of_not_mem hx hi) _ _

theorem IsList.head? (h : IsList next a l) : a = l.head? := by
  cases l with
  | nil => exact h
  | cons x l => exact h.1

theorem IsList.unique (h : IsList next a l) (h' : IsList next a l') : l = l' := by
  induction l generalizing a l' with
  | nil =>
    cases l' with
    | nil => rfl
    | cons y l' =>
      rw [seg_nil.mp h] at h'
      cases h'.1
  | cons x l ih =>
    cases l' with
    | nil =>
      rw [seg_nil.mp h'] at h
      cases h.1
    | cons y l' =>
      obtain rfl : x = y := Option.some.inj (h.1.symm.trans h'.1)
      rw [ih h.2 h'.2]

/-- A record that stood twice would lead to two lists of different lengths. -/
theorem IsList.nodup (h : IsList next a l) : l.Nodup := by
  induction l generalizing a with
  | nil => exact List.nodup_nil
  | cons x l ih =>
    refine List.nodup_cons.mpr ⟨fun hx => ?_, ih h.2⟩
    obtain ⟨l₁, l₂, rfl⟩ := List.append_of_mem hx
    obtain ⟨c, -, hc⟩ := Seg.append_iff.mp h.2
    have heq := IsList.unique hc.2 h.2
    have hlen := congrArg List.length heq
    simp only [List.length_append, List.length_cons] at hlen
    omega

/-- The link of a record in a list, and the list after it. -/
theorem IsList.split (h : IsList next a l) (hx : x ∈ l) :
    ∃ l₁ l₂, l = l₁ ++ x :: l₂ ∧ Seg next a l₁ (some x) ∧ IsList next (next x) l₂ := by
  obtain ⟨l₁, l₂, rfl⟩ := List.append_of_mem hx
  obtain ⟨c, h₁, rfl, h₂⟩ := Seg.append_iff.mp h
  exact ⟨l₁, l₂, rfl, h₁, h₂⟩

/-- `i->next = x->next; x->next = i`. -/
theorem IsList.insert [DecidableEq α] {l₁ l₂ : List α} (h : IsList next a (l₁ ++ x :: l₂))
    (hi : i ∉ l₁ ++ x :: l₂) :
    IsList (Function.update (Function.update next i (next x)) x (some i)) a
      (l₁ ++ x :: i :: l₂) := by
  have hnodup := h.nodup
  obtain ⟨c, h₁, hc, h₂⟩ := Seg.append_iff.mp h
  simp only [List.mem_append, List.mem_cons, not_or] at hi
  rw [List.nodup_append, List.nodup_cons] at hnodup
  obtain ⟨-, ⟨hx₂, -⟩, hdisj⟩ := hnodup
  have hx₁ : x ∉ l₁ := fun hx => hdisj x hx x List.mem_cons_self rfl
  refine Seg.append_iff.mpr ⟨c, (h₁.update hi.1 _).update hx₁ _, hc, ?_, ?_⟩
  · rw [Function.update_self]
  · rw [Function.update_of_ne hi.2.1, Function.update_self]
    exact (h₂.update hi.2.2 _).update hx₂ _

/-- `x->next = i->next`, where `i` is after `x`. -/
theorem IsList.unlink [DecidableEq α] {l₁ l₂ : List α} (h : IsList next a (l₁ ++ x :: i :: l₂)) :
    IsList (Function.update next x (next i)) a (l₁ ++ x :: l₂) := by
  have hnodup := h.nodup
  obtain ⟨c, h₁, rfl, -, h₂⟩ := Seg.append_iff.mp h
  rw [List.nodup_append, List.nodup_cons] at hnodup
  obtain ⟨-, ⟨hx₂, -⟩, hdisj⟩ := hnodup
  have hx₁ : x ∉ l₁ := fun hx => hdisj x hx x List.mem_cons_self rfl
  refine Seg.append_iff.mpr ⟨some x, h₁.update hx₁ _, rfl, ?_⟩
  rw [Function.update_self]
  exact h₂.update (fun hx => hx₂ (List.mem_cons_of_mem _ hx)) _

/-! ### Parts of a block of storage -/

/-- The parts of size `step` from `a` on, `n` and one more, are linked, with `last` behind. -/
def thread (step : ℕ) (last : Option ℕ) : ℕ → ℕ → (ℕ → Option ℕ) → ℕ → Option ℕ
  | 0, a, next => update next a last
  | n + 1, a, next => thread step last n (a + step) (update next a (some (a + step)))

theorem thread_of_not_mem {step n a x : ℕ} {last : Option ℕ} {next : ℕ → Option ℕ}
    (hx : x ∉ List.range' a (n + 1) step) : thread step last n a next x = next x := by
  induction n generalizing a next with
  | zero => exact Function.update_of_ne (by simpa using hx) _ _
  | succ n ih =>
    rw [List.range'_succ, List.mem_cons, not_or] at hx
    rw [thread, ih hx.2, Function.update_of_ne hx.1]

theorem thread_list {step n a : ℕ} {last : Option ℕ} {next : ℕ → Option ℕ} {l : List ℕ}
    (hstep : 0 < step) (h : IsList next last l) (hl : ∀ x ∈ l, x ∉ List.range' a (n + 1) step) :
    IsList (thread step last n a next) (some a) (List.range' a (n + 1) step ++ l) := by
  induction n generalizing a next with
  | zero =>
    have ha : a ∉ l := fun hmem => hl a hmem (by simp)
    refine ⟨rfl, ?_⟩
    rw [thread, Function.update_self]
    exact h.update ha last
  | succ n ih =>
    rw [List.range'_succ] at hl ⊢
    have ha : a ∉ l := fun hmem => hl a hmem List.mem_cons_self
    rw [List.cons_append]
    refine ⟨rfl, ?_⟩
    -- the first part is behind the others
    have hfirst : thread step last (n + 1) a next a = some (a + step) := by
      rw [thread, thread_of_not_mem, Function.update_self]
      intro hmem
      obtain ⟨i, -, hi⟩ := List.mem_range'.mp hmem
      omega
    rw [hfirst]
    exact ih (h.update ha _) fun x hx hmem => hl x hx (List.mem_cons_of_mem _ hmem)

/-! ### The search of a record -/

/-- The first record from `a` on, of at most `n`, with `p`, and the one before it, where `b` is
the one before `a`. -/
def findFrom (next : α → Option α) (p : α → Bool) :
    ℕ → Option α → Option α → Option (Option α × α)
  | 0, _, _ => none
  | _ + 1, _, none => none
  | n + 1, b, some x => if p x then some (b, x) else findFrom next p n (some x) (next x)

theorem findFrom_of_seg {p : α → Bool} {n : ℕ} (h : Seg next a l (some x))
    (hl : ∀ y ∈ l, p y = false) (hx : p x = true) (hn : l.length < n) :
    findFrom next p n b a = some (l.getLast?.or b, x) := by
  induction l generalizing a b n with
  | nil =>
    obtain ⟨n, rfl⟩ := Nat.exists_eq_succ_of_ne_zero (Nat.ne_of_gt hn)
    rw [seg_nil.mp h]
    exact if_pos hx
  | cons y l ih =>
    obtain ⟨n, rfl⟩ := Nat.exists_eq_succ_of_ne_zero (Nat.ne_of_gt (Nat.zero_lt_of_lt hn))
    obtain ⟨rfl, hl'⟩ := h
    have hy : p y = false := hl y List.mem_cons_self
    have hrest := ih (b := some y) hl' (fun z hz => hl z (List.mem_cons_of_mem _ hz))
      (Nat.lt_of_succ_lt_succ hn)
    rw [findFrom, hy, hrest, List.getLast?_cons]
    cases l.getLast? <;> rfl

theorem findFrom_none {p : α → Bool} {n : ℕ} (h : IsList next a l) (hl : ∀ y ∈ l, p y = false) :
    findFrom next p n b a = none := by
  induction l generalizing a b n with
  | nil =>
    rw [seg_nil.mp h]
    cases n <;> rfl
  | cons y l ih =>
    obtain ⟨rfl, hl'⟩ := h
    cases n with
    | zero => rfl
    | succ n =>
      rw [findFrom, hl y List.mem_cons_self]
      exact ih hl' fun z hz => hl z (List.mem_cons_of_mem _ hz)

/-- What is found is in the list, in front of which is the record before it. -/
theorem findFrom_spec {p : α → Bool} {n : ℕ} (h : IsList next a l) (hn : l.length ≤ n) :
    (∃ l₁ x l₂, l = l₁ ++ x :: l₂ ∧ p x = true ∧ (∀ y ∈ l₁, p y = false) ∧
      findFrom next p n b a = some (l₁.getLast?.or b, x)) ∨
    ((∀ y ∈ l, p y = false) ∧ findFrom next p n b a = none) := by
  cases hfind : l.find? p with
  | none =>
    have hl : ∀ y ∈ l, p y = false := by simpa using hfind
    exact .inr ⟨hl, findFrom_none h hl⟩
  | some x =>
    obtain ⟨hx, l₁, l₂, rfl, hl₁⟩ := List.find?_eq_some_iff_append.mp hfind
    have hbefore : ∀ y ∈ l₁, p y = false := fun y hy => by simpa using hl₁ y hy
    obtain ⟨c, h₁, rfl, -⟩ := Seg.append_iff.mp h
    refine .inl ⟨l₁, x, l₂, rfl, hx, hbefore, findFrom_of_seg h₁ hbefore hx ?_⟩
    rw [List.length_append, List.length_cons] at hn
    omega

/-! ### Lists linked in both directions -/

variable {prev prev' : α → Option α}

/-- `if (p) p->field = v`. -/
def store [DecidableEq α] (f : α → Option α) (p : Option α) (v : Option α) : α → Option α :=
  match p with
  | none => f
  | some x => update f x v

theorem store_of_ne [DecidableEq α] {f : α → Option α} {p v : Option α} (h : p ≠ some x) :
    store f p v x = f x := by
  cases p with
  | none => rfl
  | some y =>
    have hne : x ≠ y := fun heq => h (heq ▸ rfl)
    exact Function.update_of_ne hne _ _

@[simp] theorem store_some [DecidableEq α] (f : α → Option α) (x : α) (v : Option α) :
    store f (some x) v x = v :=
  Function.update_self _ _ _

/-- The links back of the records of `l`, the first of which comes after `b`. -/
def Back (prev : α → Option α) : Option α → List α → Prop
  | _, [] => True
  | b, x :: l => prev x = b ∧ Back prev (some x) l

@[simp] theorem back_nil : Back prev b [] := trivial

@[simp] theorem back_cons : Back prev b (x :: l) ↔ prev x = b ∧ Back prev (some x) l := Iff.rfl

theorem Back.congr (h : Back prev b l) (heq : ∀ x ∈ l, prev' x = prev x) : Back prev' b l := by
  induction l generalizing b with
  | nil => trivial
  | cons x l ih =>
    refine ⟨(heq x List.mem_cons_self).trans h.1, ?_⟩
    exact ih h.2 fun y hy => heq y (List.mem_cons_of_mem _ hy)

theorem Back.append_iff :
    Back prev b (l ++ l') ↔ Back prev b l ∧ Back prev (l.getLast?.or b) l' := by
  induction l generalizing b with
  | nil => simp
  | cons x l ih =>
    rw [List.cons_append, back_cons, back_cons, ih, List.getLast?_cons, and_assoc]
    cases l.getLast? <;> rfl

/-- The same list with another record, or none, before it. -/
theorem Back.shift [DecidableEq α] (h : Back prev b l) (hn : l.Nodup) (c : Option α) :
    Back (store prev l.head? c) c l := by
  cases l with
  | nil => trivial
  | cons x l =>
    refine ⟨store_some _ _ _, h.2.congr fun y hy => store_of_ne ?_⟩
    intro heq
    exact (List.nodup_cons.mp hn).1 (Option.some.inj heq ▸ hy)

/-- A list linked forward and back. -/
structure Dll (next prev : α → Option α) (a : Option α) (l : List α) : Prop where
  list : IsList next a l
  back : Back prev none l

namespace Dll

theorem nil : Dll next prev none [] := ⟨rfl, trivial⟩

theorem head? (h : Dll next prev a l) : a = l.head? := IsList.head? h.list

theorem congr (h : Dll next prev a l) (hn : ∀ x ∈ l, next' x = next x)
    (hp : ∀ x ∈ l, prev' x = prev x) : Dll next' prev' a l :=
  ⟨h.list.congr hn, h.back.congr hp⟩

/-- A new record is put in front. -/
theorem push [DecidableEq α] (h : Dll next prev a l) (hx : x ∉ l) :
    Dll (update next x a) (store (update prev x none) a (some x)) (some x) (x :: l) := by
  have ha := h.head?
  have hback : Back (update prev x none) none l :=
    h.back.congr fun y hy => Function.update_of_ne (ne_of_mem_of_not_mem hy hx) _ _
  constructor
  · exact ⟨rfl, by rw [Function.update_self]; exact h.list.update hx a⟩
  · refine ⟨?_, ?_⟩
    · rw [store_of_ne, Function.update_self]
      rw [ha]
      exact fun heq => hx (List.mem_of_mem_head? heq)
    · rw [ha]
      exact hback.shift h.list.nodup (some x)

/-- A list is put in front of another. -/
theorem append [DecidableEq α] {z : α} (h : Dll next prev a l) (h' : Dll next prev b l')
    (hz : l.getLast? = some z) (hdisj : List.Disjoint l l') :
    Dll (update next z b) (store prev b (some z)) a (l ++ l') := by
  have hb := h'.head?
  obtain ⟨l₁, rfl⟩ := List.getLast?_eq_some_iff.mp hz
  have hnodup := h.list.nodup
  rw [List.nodup_append] at hnodup
  have hz₁ : z ∉ l₁ := fun hmem => hnodup.2.2 z hmem z List.mem_cons_self rfl
  have hz' : z ∉ l' := hdisj (by simp)
  obtain ⟨c, h₁, hc, -⟩ := Seg.append_iff.mp h.list
  constructor
  · refine Seg.append_iff.mpr ⟨b, Seg.append_iff.mpr ⟨c, h₁.update hz₁ b, hc, ?_⟩, h'.list.update hz' b⟩
    rw [Function.update_self, seg_nil]
  · refine Back.append_iff.mpr ⟨h.back.congr fun y hy => store_of_ne ?_, ?_⟩
    · rw [hb]
      exact fun heq => hdisj hy (List.mem_of_mem_head? heq)
    · rw [hz, hb]
      exact h'.back.shift h'.list.nodup (some z)

/-- A record is taken out. -/
theorem remove [DecidableEq α] {l₁ l₂ : List α} (h : Dll next prev a (l₁ ++ x :: l₂)) :
    Dll (store next (prev x) (next x)) (store prev (next x) (prev x))
      (if prev x = none then next x else a) (l₁ ++ l₂) := by
  have hnodup := h.list.nodup
  rw [List.nodup_append, List.nodup_cons] at hnodup
  obtain ⟨hnodup₁, ⟨-, hnodup₂⟩, hdisj⟩ := hnodup
  obtain ⟨c, h₁, hc, h₂⟩ := Seg.append_iff.mp h.list
  obtain ⟨hb₁, hx, hb₂⟩ := Back.append_iff.mp h.back
  rw [Option.or_none] at hx
  have hnext : next x = l₂.head? := IsList.head? h₂
  have hback : Back (store prev (next x) (prev x)) none (l₁ ++ l₂) := by
    refine Back.append_iff.mpr ⟨hb₁.congr fun y hy => store_of_ne ?_, ?_⟩
    · rw [hnext]
      exact fun heq => hdisj y hy y (List.mem_cons_of_mem _ (List.mem_of_mem_head? heq)) rfl
    · rw [Option.or_none, ← hx, hnext]
      exact hb₂.shift hnodup₂ (prev x)
  refine ⟨?_, hback⟩
  rcases List.eq_nil_or_concat l₁ with rfl | ⟨l₀, y, rfl⟩
  · rw [show prev x = none from hx, if_pos rfl]
    exact h₂
  · rw [List.concat_eq_append] at *
    have hy : prev x = some y := by rw [hx, List.getLast?_append_of_ne_nil] <;> simp
    rw [hy, if_neg (by simp)]
    obtain ⟨d, h₀, hd, -⟩ := Seg.append_iff.mp h₁
    have hy₀ : y ∉ l₀ := by
      rw [List.nodup_append] at hnodup₁
      exact fun hmem => hnodup₁.2.2 y hmem y List.mem_cons_self rfl
    have hy₂ : y ∉ l₂ := fun hmem =>
      hdisj y (by simp) y (List.mem_cons_of_mem _ hmem) rfl
    refine Seg.append_iff.mpr ⟨next x, Seg.append_iff.mpr ⟨d, h₀.update hy₀ _, hd, ?_⟩,
      h₂.update hy₂ _⟩
    exact Function.update_self _ _ _

end Dll

end Links
