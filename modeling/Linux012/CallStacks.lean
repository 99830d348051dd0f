/-
Machines with a stack of calls.

* `Next` — the call on the top makes a step, and the calls that take its place are done before
  those below it;
* `Returns` — a list of calls returns whatever it meets, its nesting stays within a bound, and
  the state afterwards is as it should be;
* `Returns.append` — calls after calls;
* `Returns.acc`, `Returns.length_le` — such a machine stops, and its stack stays within the bound;
* `not_acc_of_again` — one that comes back to where it was does not stop.
-/
import Mathlib.Logic.Relation
import Mathlib.Data.Nat.Notation

universe u v w

namespace CallStack

variable {σ : Type u} {ι : Type v} {φ : Type w} (run : σ → ι → φ → σ × List φ)

/-- A step of the call on the top of the stack. -/
def Next (c c' : σ × List φ) : Prop := ∃ i f rest, c.2 = f :: rest ∧
  c' = ((run c.1 i f).1, (run c.1 i f).2 ++ rest)

/-- The calls of a list return, nested at most `d` deep, in a state where `Q` holds. -/
inductive Returns (d : ℕ) (Q : σ → Prop) : σ → List φ → Prop where
  | nil {s : σ} (h : Q s) : Returns d Q s []
  | cons {s : σ} {f : φ} {rest : List φ} (hd : (f :: rest).length ≤ d)
      (h : ∀ i, Returns d Q (run s i f).1 ((run s i f).2 ++ rest)) : Returns d Q s (f :: rest)

variable {run} {d d' : ℕ} {Q Q' : σ → Prop} {s : σ} {f : φ} {l rest : List φ}

namespace Returns

theorem mono (h : Returns run d Q s l) (hd : d ≤ d') (hQ : ∀ s, Q s → Q' s) :
    Returns run d' Q' s l := by
  induction h with
  | nil h => exact .nil (hQ _ h)
  | cons hlen _ ih => exact .cons (Nat.le_trans hlen hd) ih

/-- Calls after calls. -/
theorem append (h : Returns run d Q s l) (hd : d + rest.length ≤ d')
    (hrest : ∀ s', Q s' → Returns run d' Q' s' rest) : Returns run d' Q' s (l ++ rest) := by
  induction h with
  | nil h => exact hrest _ h
  | cons hlen _ ih =>
    rw [List.cons_append]
    refine .cons ?_ fun i => ?_
    · rw [List.length_cons, List.length_append]
      rw [List.length_cons] at hlen
      omega
    · rw [← List.append_assoc]
      exact ih i

/-- A call takes one step. -/
theorem one (hd : 1 ≤ d) (h : ∀ i, Returns run d Q (run s i f).1 (run s i f).2) :
    Returns run d Q s [f] :=
  .cons hd fun i => by
    rw [List.append_nil]
    exact h i

theorem next {c c' : σ × List φ} (h : Returns run d Q c.1 c.2) (hs : Next run c c') :
    Returns run d Q c'.1 c'.2 := by
  obtain ⟨i, f, rest, hf, rfl⟩ := hs
  rw [hf] at h
  cases h with
  | cons _ h => exact h i

theorem length_le (h : Returns run d Q s l) : l.length ≤ d := by
  cases h with
  | nil => exact Nat.zero_le d
  | cons hlen => exact hlen

/-- The machine stops. -/
theorem acc (h : Returns run d Q s l) : Acc (fun c' c => Next run c c') (s, l) := by
  induction h with
  | nil =>
    refine .intro _ ?_
    rintro c ⟨i, f, rest, hf, -⟩
    cases hf
  | cons _ _ ih =>
    refine .intro _ ?_
    rintro c ⟨i, f, rest, hf, rfl⟩
    cases hf
    exact ih i

/-- The stack stays within the bound. -/
theorem reach {c c' : σ × List φ} (h : Returns run d Q c.1 c.2)
    (hs : Relation.ReflTransGen (Next run) c c') : Returns run d Q c'.1 c'.2 := by
  induction hs with
  | refl => exact h
  | tail _ hs ih => exact ih.next hs

end Returns

/-- What comes back to itself does not stop. -/
theorem not_acc_of_again {P : σ × List φ → Prop}
    (h : ∀ c, P c → ∃ c', Relation.TransGen (Next run) c c' ∧ P c') {c : σ × List φ} (hc : P c) :
    ¬ Acc (fun c' c => Next run c c') c := by
  intro hacc
  have hacc' := hacc.transGen
  induction hacc' with
  | intro c _ ih =>
    obtain ⟨c', hs, hc'⟩ := h c hc
    have hs' : Relation.TransGen (fun c' c => Next run c c') c' c :=
      Relation.transGen_swap.mpr hs
    exact ih c' hs' hc' (Acc.inv_of_transGen hacc hs')

end CallStack
