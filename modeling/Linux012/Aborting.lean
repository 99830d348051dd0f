/-
Programs on a state that may abort, and keep the state when they do.

* `Step`, `Program` — what can only go wrong, and what may abort as well;
* `Does`, `Leaves`, `Aborts` — how the state is when a step or a program completes, and when a
  program aborts;
* `aborts_run`, `aborts_bind` — only the parts that may abort matter, and what comes before them.
-/
import Mathlib.Logic.Basic

namespace Aborting

/-- A step on a state that completes or goes wrong. -/
abbrev Step (σ φ : Type) (α : Type) : Type := StateT σ (Except φ) α

/-- A program that may abort as well. -/
abbrev Program (σ φ : Type) (α : Type) : Type := ExceptT Unit (StateT σ (Except φ)) α

variable {σ φ α β : Type}

/-- What comes of a program: unless it goes wrong, its result or an abort, and the state. -/
def exec (x : Program σ φ α) (s : σ) : Except φ (Except Unit α × σ) := x s

/-- A step as a program. -/
def run (x : Step σ φ α) : Program σ φ α := ExceptT.lift x

/-- The state of `s` is left as in `s'`, and the program is given up. -/
def abort (f : σ → σ) : Program σ φ α := fun s => .ok (.error (), f s)

theorem exec_bind (x : Program σ φ α) (f : α → Program σ φ β) (s : σ) :
    exec (x >>= f) s = match exec x s with
      | .ok (.ok a, s') => exec (f a) s'
      | .ok (.error e, s') => .ok (.error e, s')
      | .error e => .error e := by
  unfold exec
  change (x s >>= fun p => _) = _
  rcases x s with e | ⟨_ | a, s'⟩ <;> rfl

theorem exec_run (x : Step σ φ α) (s : σ) : exec (run x) s = match x s with
    | .ok (a, s') => .ok (.ok a, s')
    | .error e => .error e := by
  unfold exec
  change (x s >>= fun p => _) = _
  rcases x s with e | ⟨a, s'⟩ <;> rfl

theorem exec_map (x : Program σ φ α) (f : α → β) (s : σ) :
    exec (f <$> x) s = match exec x s with
      | .ok (.ok a, s') => .ok (.ok (f a), s')
      | .ok (.error e, s') => .ok (.error e, s')
      | .error e => .error e := by
  unfold exec
  change (x s >>= fun p => _) = _
  rcases x s with e | ⟨_ | a, s'⟩ <;> rfl

/-- The states in which a step completes. -/
def Does (x : Step σ φ α) (R : σ → σ → Prop) : Prop :=
  ∀ s a s', x s = .ok (a, s') → R s s'

/-- The states in which a program completes. -/
def Leaves (x : Program σ φ α) (R : σ → σ → Prop) : Prop :=
  ∀ s a s', exec x s = .ok (.ok a, s') → R s s'

/-- The states in which it aborts. -/
def Aborts (x : Program σ φ α) (R : σ → σ → Prop) : Prop :=
  ∀ s s', exec x s = .ok (.error (), s') → R s s'

variable {P Q R : σ → σ → Prop}

/-! ### Steps -/

theorem does_pure (a : α) (h : ∀ s, R s s) : Does (pure a : Step σ φ α) R := by
  intro s b s' hs
  cases hs
  exact h s

theorem does_modifyGet (f : σ → α × σ) (h : ∀ s, R s (f s).2) :
    Does (modifyGet f : Step σ φ α) R := by
  intro s a s' hs
  have hf : f s = (a, s') := Except.ok.inj hs
  have hs' := h s
  rwa [hf] at hs'

theorem does_bind {x : Step σ φ α} {f : α → Step σ φ β} (h : ∀ a b c, Q a b → P b c → R a c)
    (hx : Does x Q) (hf : ∀ a, Does (f a) P) : Does (x >>= f) R := by
  intro s b s' hs
  change (x s >>= fun p => f p.1 p.2) = _ at hs
  rcases hx₁ : x s with e | ⟨a, s₁⟩ <;> rw [hx₁] at hs
  · cases hs
  · exact h s s₁ s' (hx s a s₁ hx₁) (hf a s₁ b s' hs)

/-! ### Programs -/

variable {x : Program σ φ α} {f : α → Program σ φ β}

/-- A step does not abort. -/
theorem aborts_run (x : Step σ φ α) : Aborts (run x) R := by
  intro s s' h
  rw [exec_run] at h
  rcases hx : x s with e | ⟨a, s₁⟩ <;> rw [hx] at h <;> cases h

theorem leaves_run {x : Step σ φ α} (h : Does x R) : Leaves (run x) R := by
  intro s a s' hx
  rw [exec_run] at hx
  rcases hx' : x s with e | ⟨b, s₁⟩ <;> rw [hx'] at hx <;> cases hx
  exact h s _ _ hx'

theorem aborts_abort (g : σ → σ) (h : ∀ s, R s (g s)) :
    Aborts (abort g : Program σ φ α) R := by
  intro s s' hx
  cases hx
  exact h s

theorem leaves_abort (g : σ → σ) : Leaves (abort g : Program σ φ α) R := by
  intro s a s' hx
  cases hx

theorem leaves_pure (a : α) (h : ∀ s, R s s) : Leaves (pure a : Program σ φ α) R := by
  intro s b s' hx
  cases hx
  exact h s

theorem aborts_pure (a : α) : Aborts (pure a : Program σ φ α) R := by
  intro s s' hx
  cases hx

/-- An abort of the second part comes after what the first one leaves. -/
theorem aborts_bind (h : ∀ a b c, Q a b → P b c → R a c) (hx : Leaves x Q) (hx' : Aborts x R)
    (hf : ∀ a, Aborts (f a) P) : Aborts (x >>= f) R := by
  intro s s' hs
  rw [exec_bind] at hs
  rcases hx₁ : exec x s with e | ⟨_ | a, s₁⟩
  · rw [hx₁] at hs
    cases hs
  · rw [hx₁] at hs
    cases hs
    exact hx' s _ hx₁
  · rw [hx₁] at hs
    exact h s s₁ s' (hx s a s₁ hx₁) (hf a s₁ s' hs)

/-- A program that ends with a step aborts where it did before. -/
theorem aborts_bind_run {f : α → Step σ φ β} (hx : Aborts x R) :
    Aborts (x >>= fun a => run (f a)) R :=
  aborts_bind (Q := fun _ _ => True) (P := fun _ _ => False) (fun _ _ _ _ h => h.elim)
    (fun _ _ _ _ => trivial) hx fun a => aborts_run (f a)

theorem leaves_bind (h : ∀ a b c, Q a b → P b c → R a c) (hx : Leaves x Q)
    (hf : ∀ a, Leaves (f a) P) : Leaves (x >>= f) R := by
  intro s b s' hs
  rw [exec_bind] at hs
  rcases hx₁ : exec x s with e | ⟨_ | a, s₁⟩
  · rw [hx₁] at hs
    cases hs
  · rw [hx₁] at hs
    cases hs
  · rw [hx₁] at hs
    exact h s s₁ s' (hx s a s₁ hx₁) (hf a s₁ b s' hs)

theorem aborts_map (g : α → β) (hx : Aborts x R) : Aborts (g <$> x) R := by
  intro s s' hs
  rw [exec_map] at hs
  rcases hx₁ : exec x s with e | ⟨_ | a, s₁⟩ <;> rw [hx₁] at hs <;> cases hs
  exact hx s _ hx₁

theorem leaves_map (g : α → β) (hx : Leaves x R) : Leaves (g <$> x) R := by
  intro s b s' hs
  rw [exec_map] at hs
  rcases hx₁ : exec x s with e | ⟨_ | a, s₁⟩ <;> rw [hx₁] at hs <;> cases hs
  exact hx s a _ hx₁

end Aborting
