/-
References that a computation takes and gives back.

* `Owning.take`, `Owning.drop` — take a reference, and give one back, which fails where
  there is none;
* `Owning.takeAll`, `Owning.dropAll` — the same for a list of them;
* `Owning.Yields` — what a computation that owns some references comes to, and which ones
  it owns then, whatever the others are;
* `Yields.bind`, `Yields.bind_take`, `Yields.bind_drop`, `Yields.frame` — the rules by
  which this follows the computation.
-/
import Mathlib.Algebra.Group.Pi.Basic
import Mathlib.Tactic.Abel

universe u v w

/-- Computations over reference counts, which may fail. -/
abbrev Owning (ρ : Type u) (ε : Type v) (α : Type u) : Type (max u v) :=
  StateT (ρ → ℕ) (Except ε) α

namespace Owning

variable {ρ : Type u} [DecidableEq ρ] {ε : Type v} {α β : Type u}

def take (r : ρ) : Owning ρ ε PUnit := fun s => .ok (⟨⟩, s + Pi.single r 1)

def drop (e : ε) (r : ρ) : Owning ρ ε PUnit := fun s =>
  if s r = 0 then .error e else .ok (⟨⟩, s - Pi.single r 1)

def takeAll : List ρ → Owning ρ ε PUnit
  | [] => pure ⟨⟩
  | r :: rs => take r >>= fun _ => takeAll rs

def dropAll (e : ε) : List ρ → Owning ρ ε PUnit
  | [] => pure ⟨⟩
  | r :: rs => drop e r >>= fun _ => dropAll e rs

/-- The references of a list. -/
def total : List ρ → ρ → ℕ
  | [] => 0
  | r :: rs => Pi.single r 1 + total rs

omit [DecidableEq ρ] in
theorem bind_apply (m : Owning ρ ε α) (k : α → Owning ρ ε β) (s : ρ → ℕ) :
    (m >>= k) s = m s >>= fun x => k x.1 x.2 := rfl

theorem drop_apply {e : ε} {x : ρ} (s : ρ → ℕ) : drop e x (s + Pi.single x 1) = .ok (⟨⟩, s) := by
  have hpos : (s + Pi.single x 1 : ρ → ℕ) x ≠ 0 := by simp
  have hsub : s + Pi.single x 1 - Pi.single x 1 = s := by
    funext y
    simp only [Pi.add_apply, Pi.sub_apply, Nat.add_sub_cancel]
  rw [drop, if_neg hpos, hsub]

theorem drop_bind {e : ε} {x : ρ} {m : Owning ρ ε α} (s : ρ → ℕ) :
    (drop e x >>= fun _ => m) (s + Pi.single x 1) = m s := by
  rw [bind_apply, drop_apply]
  rfl

/-- A reference that could be given back was there. -/
theorem of_drop {e : ε} {x : ρ} {m : Owning ρ ε α} {s : ρ → ℕ} {r : α × (ρ → ℕ)}
    (h : (drop e x >>= fun _ => m) s = .ok r) : ∃ s₁, s = s₁ + Pi.single x 1 ∧ m s₁ = .ok r := by
  rw [bind_apply, drop] at h
  by_cases hpos : s x = 0
  · rw [if_pos hpos] at h
    cases h
  · rw [if_neg hpos] at h
    refine ⟨s - Pi.single x 1, ?_, h⟩
    funext y
    by_cases hy : y = x
    · subst hy
      simp only [Pi.add_apply, Pi.sub_apply, Pi.single_eq_same]
      omega
    · simp [hy]

/-- With the references `H`, `m` comes to `r`, and has the references `H'` then. -/
def Yields (m : Owning ρ ε α) (H : ρ → ℕ) (r : Except ε α) (H' : α → ρ → ℕ) : Prop :=
  ∀ s, m (s + H) = r.map fun a => (a, s + H' a)

namespace Yields

variable {m : Owning ρ ε α} {k : α → Owning ρ ε β} {H H₁ F : ρ → ℕ} {r : Except ε α}
  {H' : α → ρ → ℕ} {a : α} {e : ε} {x : ρ}

omit [DecidableEq ρ] in
theorem pure (h : H' a = H) : Yields (Pure.pure a : Owning ρ ε α) H (.ok a) H' := by
  intro s
  rw [← h]
  rfl

omit [DecidableEq ρ] in
theorem throw : Yields (MonadExcept.throw e : Owning ρ ε α) H (.error e) H' := fun _ => rfl

omit [DecidableEq ρ] in
theorem of_eq (h : Yields m H₁ r H') (hH : H = H₁) : Yields m H r H' := hH ▸ h

omit [DecidableEq ρ] in
theorem bind {r' : α → Except ε β} {H'' : β → ρ → ℕ} (hm : Yields m H r H')
    (hk : ∀ a, r = .ok a → Yields (k a) (H' a) (r' a) H'') :
    Yields (m >>= k) H (r >>= r') H'' := by
  intro s
  rw [bind_apply, hm s]
  cases r with
  | error e => rfl
  | ok a => exact hk a rfl s

omit [DecidableEq ρ] in
theorem bind_ok {r' : Except ε β} {H'' : β → ρ → ℕ} (hm : Yields m H (.ok a) H')
    (hk : Yields (k a) (H' a) r' H'') : Yields (m >>= k) H r' H'' := by
  intro s
  rw [bind_apply, hm s]
  exact hk s

omit [DecidableEq ρ] in
/-- A result that is put into another one keeps its references. -/
theorem map {f : α → β} {H'' : β → ρ → ℕ} (hm : Yields m H r H') (hf : ∀ a, H'' (f a) = H' a) :
    Yields (m >>= fun a => Pure.pure (f a)) H (r.map f) H'' := by
  intro s
  rw [bind_apply, hm s]
  cases r with
  | error e => rfl
  | ok a =>
    show Except.ok (f a, s + H' a) = Except.ok (f a, s + H'' (f a))
    rw [hf]

omit [DecidableEq ρ] in
/-- The other references of the caller stay. -/
theorem frame (h : Yields m H r H') (F : ρ → ℕ) : Yields m (H + F) r fun a => H' a + F := by
  intro s
  have hs := h (s + F)
  rw [show s + F + H = s + (H + F) by abel] at hs
  rw [hs]
  cases r with
  | error e => rfl
  | ok a =>
    show Except.ok (a, s + F + H' a) = Except.ok (a, s + (H' a + F))
    rw [show s + F + H' a = s + (H' a + F) by abel]

theorem bind_take {k : Owning ρ ε α} (h : Yields k (Pi.single x 1 + H) r H') :
    Yields (take x >>= fun _ => k) H r H' := by
  intro s
  have hs := h s
  rw [show s + (Pi.single x 1 + H) = s + H + Pi.single x 1 by abel] at hs
  exact hs

theorem bind_drop {k : Owning ρ ε α} (h : Yields k H r H') :
    Yields (Owning.drop e x >>= fun _ => k) (Pi.single x 1 + H) r H' := by
  intro s
  rw [show s + (Pi.single x 1 + H) = s + H + Pi.single x 1 by abel, drop_bind]
  exact h s

theorem drop : Yields (Owning.drop e x) (Pi.single x 1) (.ok ⟨⟩) fun _ => 0 := drop_apply

theorem takeAll (l : List ρ) :
    Yields (Owning.takeAll l : Owning ρ ε PUnit) H (.ok ⟨⟩) fun _ => total l + H := by
  induction l generalizing H with
  | nil => exact .pure (zero_add H)
  | cons r rs ih =>
    refine bind_take ?_
    rw [total, add_assoc, add_left_comm]
    exact ih

theorem dropAll (l : List ρ) :
    Yields (Owning.dropAll e l) (total l + H) (.ok ⟨⟩) fun _ => H := by
  induction l with
  | nil => exact .pure (zero_add H).symm
  | cons r rs ih =>
    rw [total, add_assoc]
    exact bind_drop ih

omit [DecidableEq ρ] in
theorem ite {c : Prop} [Decidable c] {m' : Owning ρ ε α} {r' : Except ε α}
    (h : c → Yields m H r H') (h' : ¬ c → Yields m' H r' H') :
    Yields (if c then m else m') H (if c then r else r') H' := by
  split
  case isTrue hc => exact h hc
  case isFalse hc => exact h' hc

omit [DecidableEq ρ] in
/-- What is left is as before, but for the references of the result. -/
theorem result (h : Yields m 0 r H') {s s' : ρ → ℕ} (hm : m s = .ok (a, s')) :
    r = .ok a ∧ s' = s + H' a := by
  have hs := h s
  rw [add_zero, hm] at hs
  cases r with
  | error e => cases hs
  | ok b =>
    cases hs
    exact ⟨rfl, rfl⟩

omit [DecidableEq ρ] in
theorem error_iff (h : Yields m 0 r H') {s : ρ → ℕ} : m s = .error e ↔ r = .error e := by
  have hs := h s
  rw [add_zero] at hs
  rw [hs]
  cases r with
  | error e' => exact ⟨fun heq => by cases heq; rfl, fun heq => by cases heq; rfl⟩
  | ok b => exact ⟨nofun, nofun⟩

end Yields

end Owning
