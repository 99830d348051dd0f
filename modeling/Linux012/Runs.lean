/-
Transition systems and what holds along their runs.

* `System.Reach G` — the states that steps meeting the guard `G` lead to from an
  initial state, and `System.Reachable`, with no guard;
* `System.Reach.invariant` — a predicate that holds initially and that every
  guarded step keeps holds in all these states;
* `runOf`, `guarded` — the state that a list of labels leads to, where steps, and
  steps that meet a guard, are computed;
* `Steps.invariant` — the same for a relation repeated any number of times;
* `Except.ok_of_bind` — the parts of a computation that has not failed;
* `answers`, `Answers` — what a machine answers to a list of requests, and what a specification
  allows it to answer; `answers_allowed` — a machine whose steps refine those of the
  specification.
-/
import Mathlib.Logic.Relation

universe u v

/-- A labelled transition system: its initial states and its steps. -/
structure System (σ : Type u) (α : Type v) where
  init : σ → Prop
  step : σ → α → σ → Prop

namespace System

variable {σ : Type u} {α : Type v} {S : System σ α} {G G' : σ → α → Prop} {I : σ → Prop}

/-- The states reached by runs all of whose steps meet `G`. -/
inductive Reach (S : System σ α) (G : σ → α → Prop) : σ → Prop where
  | init {s : σ} (h : S.init s) : Reach S G s
  | step {s s' : σ} {a : α} (h : Reach S G s) (hg : G s a) (hs : S.step s a s') :
      Reach S G s'

/-- The states reached by any run. -/
abbrev Reachable (S : System σ α) : σ → Prop := Reach S fun _ _ => True

theorem Reach.mono (hG : ∀ s a, G s a → G' s a) {s : σ} (h : Reach S G s) :
    Reach S G' s := by
  induction h with
  | init h => exact .init h
  | step _ hg hs ih => exact .step ih (hG _ _ hg) hs

/-- What holds initially and is kept by every guarded step holds throughout. -/
theorem Reach.invariant (hinit : ∀ s, S.init s → I s)
    (hstep : ∀ s a s', I s → G s a → S.step s a s' → I s') {s : σ} (h : Reach S G s) :
    I s := by
  induction h with
  | init h => exact hinit _ h
  | step _ hg hs ih => exact hstep _ _ _ ih hg hs

/-- The state that the labels of a list lead to, where `next` computes a step. -/
def runOf (next : σ → α → Option σ) : List α → σ → Option σ
  | [], s => some s
  | a :: as, s => (next s a).bind (runOf next as)

theorem Reach.of_runOf {next : σ → α → Option σ} {as : List α} {s s' : σ}
    (hnext : ∀ s a s', next s a = some s' → S.step s a s') (hG : ∀ a ∈ as, ∀ s, G s a)
    (h : Reach S G s) (hs : runOf next as s = some s') : Reach S G s' := by
  induction as generalizing s with
  | nil => exact Option.some.inj hs ▸ h
  | cons a as ih =>
    obtain ⟨s₁, h₁, h₂⟩ := Option.bind_eq_some_iff.mp hs
    exact ih (fun b hb => hG b (List.mem_cons_of_mem _ hb))
      (.step h (hG a List.mem_cons_self s) (hnext s a s₁ h₁)) h₂

/-- The computed steps that meet the guard. -/
def guarded (G : σ → α → Prop) [∀ s a, Decidable (G s a)] (next : σ → α → Option σ) :
    σ → α → Option σ := fun s a => if G s a then next s a else none

theorem Reach.of_guarded [∀ s a, Decidable (G s a)] {next : σ → α → Option σ} {as : List α}
    {s s' : σ} (hnext : ∀ s a s', next s a = some s' → S.step s a s') (h : Reach S G s)
    (hs : runOf (guarded G next) as s = some s') : Reach S G s' := by
  induction as generalizing s with
  | nil => exact Option.some.inj hs ▸ h
  | cons a as ih =>
    obtain ⟨s₁, h₁, h₂⟩ := Option.bind_eq_some_iff.mp hs
    rw [guarded] at h₁
    split at h₁
    case isTrue hg => exact ih (.step h hg (hnext s a s₁ h₁)) h₂
    case isFalse => cases h₁

end System

/-! ### Computations that may fail -/

namespace Except

variable {ε : Type u} {α β : Type v} {x : Except ε α} {f g : α → Except ε β} {b : β}

theorem ok_of_bind (h : x >>= f = .ok b) : ∃ a, x = .ok a ∧ f a = .ok b := by
  cases x with
  | error e => cases h
  | ok a => exact ⟨a, rfl, h⟩

theorem bind_congr_ok (h : ∀ a, x = .ok a → f a = g a) : x >>= f = x >>= g := by
  cases x with
  | error e => rfl
  | ok a => exact h a rfl

end Except

/-! ### A relation repeated -/

/-- Any number of steps of `r`. -/
abbrev Steps {σ : Type u} (r : σ → σ → Prop) : σ → σ → Prop := Relation.ReflTransGen r

namespace Steps

variable {σ : Type u} {r r' : σ → σ → Prop} {I : σ → Prop} {s s' s'' : σ}

theorem one (h : r s s') : Steps r s s' := Relation.ReflTransGen.single h

/-- What a step keeps, any number of steps keeps. -/
theorem invariant (hstep : ∀ s s', I s → r s s' → I s') (h : Steps r s s') (hi : I s) :
    I s' := by
  induction h with
  | refl => exact hi
  | tail _ hr ih => exact hstep _ _ ih hr

end Steps

/-! ### Requests and answers -/

section

universe w x

variable {σ : Type u} {τ : Type v} {α : Type w} {β : Type x}

/-- What a machine answers to the requests of a list, unless it stops. -/
def answers (next : σ → α → Option (β × σ)) : List α → σ → Option (List β × σ)
  | [], s => some ([], s)
  | a :: as, s => (next s a).bind fun r => (answers next as r.2).map fun rs => (r.1 :: rs.1, rs.2)

/-- Every request of a list meets `G` where it is made. -/
def Along (G : σ → α → Prop) (next : σ → α → Option (β × σ)) : List α → σ → Prop
  | [], _ => True
  | a :: as, s => G s a ∧ ∀ b s', next s a = some (b, s') → Along G next as s'

/-- The answers that a specification allows, and the state that it is left in. -/
inductive Answers (spec : τ → α → β → τ → Prop) : τ → List α → List β → τ → Prop where
  | nil (t : τ) : Answers spec t [] [] t
  | cons {t t' t'' : τ} {a : α} {b : β} {as : List α} {bs : List β} (h : spec t a b t')
      (hs : Answers spec t' as bs t'') : Answers spec t (a :: as) (b :: bs) t''

/-- A machine answers as a specification allows if each of its steps does. -/
theorem answers_allowed {next : σ → α → Option (β × σ)} {spec : τ → α → β → τ → Prop}
    {G : σ → α → Prop} {R : σ → τ → Prop}
    (hstep : ∀ s t a, R s t → G s a → ∃ b s' t', next s a = some (b, s') ∧ R s' t' ∧ spec t a b t')
    {as : List α} {s : σ} {t : τ} (h : R s t) (has : Along G next as s) :
    ∃ bs s' t', answers next as s = some (bs, s') ∧ R s' t' ∧ Answers spec t as bs t' := by
  induction as generalizing s t with
  | nil => exact ⟨[], s, t, rfl, h, .nil t⟩
  | cons a as ih =>
    obtain ⟨b, s₁, t₁, hnext, h₁, hspec⟩ := hstep s t a h has.1
    obtain ⟨bs, s', t', hrest, h', hallowed⟩ := ih h₁ (has.2 b s₁ hnext)
    refine ⟨b :: bs, s', t', ?_, h', .cons hspec hallowed⟩
    rw [answers, hnext, Option.bind_some, hrest]
    rfl

end
