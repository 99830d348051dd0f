/-
A line editor: keys are pressed, and finished lines are read.

* `Editor.press` — a key erases the last element of the unfinished line, or all of it, adds one,
  or finishes the line;
* `Editor.read` — at most so many elements of the first finished line;
* `Editor.finished` — the lines as one list, in which a line that ends with no newline has a mark
  behind it;
* `Editor.Tidy` — the lines end where newlines and marks are;
* `Tidy.next` — the next element of the first line, in the middle of a read.
-/
import Mathlib.Data.Nat.Notation
import Mathlib.Data.List.Induction

universe u

namespace LineEditor

/-- A finished line; if `eof` is set, no newline ends it. -/
structure Line (β : Type u) where
  bytes : List β
  eof : Bool

structure Editor (β : Type u) where
  /-- the finished lines, or what is left of them -/
  lines : List (Line β)
  /-- the unfinished line -/
  line : List β

inductive Key (β : Type u) where
  | ignored
  | erase
  | kill
  | byte (c : β)
  | newline (c : β)
  | eof

variable {β : Type u}

def Editor.press (e : Editor β) : Key β → Editor β
  | .ignored => e
  | .erase => { e with line := e.line.dropLast }
  | .kill => { e with line := [] }
  | .byte c => { e with line := e.line ++ [c] }
  | .newline c => ⟨e.lines ++ [⟨e.line ++ [c], false⟩], []⟩
  | .eof => ⟨e.lines ++ [⟨e.line, true⟩], []⟩

/-- What a read of `n` elements leaves of a line. The end of a line without newline is read only
by one that asks for more than the line has. -/
def Line.rest (l : Line β) (n : ℕ) : Option (Line β) :=
  if l.bytes.length < n ∨ (n = l.bytes.length ∧ l.eof = false) then none
  else some ⟨l.bytes.drop n, l.eof⟩

/-- A read of `n` elements, if there is a line. -/
def Editor.read (e : Editor β) (n : ℕ) : Option (List β × Editor β) :=
  match e.lines with
  | [] => none
  | l :: ls => some (l.bytes.take n, { e with lines := (l.rest n).toList ++ ls })

def Line.chars (mark : β) (l : Line β) : List β := l.bytes ++ if l.eof then [mark] else []

/-- The finished lines as one list. -/
def Editor.finished (mark : β) (e : Editor β) : List β := e.lines.flatMap (Line.chars mark)

/-- The elements of a line are ordinary, but for the newline that ends it. -/
def Line.Tidy (ord nl : β → Prop) (l : Line β) : Prop :=
  if l.eof then ∀ x ∈ l.bytes, ord x
  else ∃ front c, l.bytes = front ++ [c] ∧ nl c ∧ ∀ x ∈ front, ord x

structure Editor.Tidy (ord nl : β → Prop) (e : Editor β) : Prop where
  lines : ∀ l ∈ e.lines, l.Tidy ord nl
  line : ∀ x ∈ e.line, ord x

/-- The key is what it is taken for. -/
def Key.Fits (ord nl : β → Prop) : Key β → Prop
  | .byte c => ord c
  | .newline c => nl c
  | _ => True

variable {ord nl : β → Prop} {mark x : β} {l : Line β} {e e' : Editor β} {r tail : List β} {n k : ℕ}

namespace Line

theorem chars_rest (l : Line β) (n : ℕ) :
    (l.rest n).toList.flatMap (chars mark) = (l.chars mark).drop n := by
  rw [rest]
  by_cases h : l.bytes.length < n ∨ (n = l.bytes.length ∧ l.eof = false)
  · rw [if_pos h, Option.toList_none, List.flatMap_nil]
    refine (List.drop_eq_nil_of_le ?_).symm
    rw [chars, List.length_append]
    obtain hlt | ⟨rfl, heof⟩ := h
    · cases l.eof with
      | true => exact hlt
      | false => exact Nat.le_of_lt hlt
    · rw [heof]
      exact Nat.le_refl _
  · rw [not_or] at h
    have hle : n ≤ l.bytes.length := Nat.le_of_not_lt h.1
    rw [if_neg (not_or.mpr h), Option.toList_some, List.flatMap_singleton]
    rw [chars, chars, List.drop_append_of_le_length hle]

theorem Tidy.rest (h : l.Tidy ord nl) {l' : Line β} (hrest : l.rest n = some l') :
    l'.Tidy ord nl := by
  rw [Line.rest] at hrest
  split at hrest
  case isTrue => cases hrest
  case isFalse hgo =>
    obtain rfl := Option.some.inj hrest
    rw [not_or] at hgo
    rw [Tidy] at h ⊢
    dsimp only
    cases heof : l.eof with
    | true =>
      rw [heof] at h
      rw [if_pos rfl] at h ⊢
      exact fun x hx => h x (List.mem_of_mem_drop hx)
    | false =>
      rw [heof, if_neg Bool.false_ne_true] at h
      rw [if_neg Bool.false_ne_true]
      obtain ⟨front, c, hbytes, hc, hfront⟩ := h
      -- the newline is still there
      have hlen : n ≤ front.length := by
        have hne : n ≠ l.bytes.length := fun heq => hgo.2 ⟨heq, heof⟩
        have hle : n ≤ l.bytes.length := Nat.le_of_not_lt hgo.1
        rw [hbytes, List.length_append, List.length_singleton] at hne hle
        omega
      refine ⟨front.drop n, c, ?_, hc, fun x hx => hfront x (List.mem_of_mem_drop hx)⟩
      rw [hbytes, List.drop_append_of_le_length hlen]

/-- The next element of a line of which `k` are read: it belongs to the line, and is the newline
that ends it if it is not ordinary, or it is the mark. -/
theorem Tidy.next (h : l.Tidy ord nl) (hk : (l.chars mark).drop k = x :: tail) :
    (k < l.bytes.length ∧ l.bytes.take (k + 1) = l.bytes.take k ++ [x] ∧
      ((ord x ∧ k + 1 < (l.chars mark).length) ∨
        (nl x ∧ k + 1 = l.bytes.length ∧ l.eof = false))) ∨
    (k = l.bytes.length ∧ l.eof = true ∧ x = mark) := by
  have hget : (l.chars mark)[k]? = some x := by
    rw [← List.head?_drop, hk, List.head?_cons]
  by_cases hlt : k < l.bytes.length
  · left
    rw [chars, List.getElem?_append_left hlt] at hget
    refine ⟨hlt, ?_, ?_⟩
    · rw [List.take_add_one, hget, Option.toList_some]
    · rw [Tidy] at h
      have hmem : x ∈ l.bytes := List.mem_of_getElem? hget
      cases heof : l.eof with
      | true =>
        rw [heof, if_pos rfl] at h
        refine .inl ⟨h x hmem, ?_⟩
        rw [chars, heof, if_pos rfl, List.length_append, List.length_singleton]
        omega
      | false =>
        rw [heof, if_neg Bool.false_ne_true] at h
        obtain ⟨front, c, hbytes, hc, hfront⟩ := h
        have hlen : l.bytes.length = front.length + 1 := by
          rw [hbytes, List.length_append, List.length_singleton]
        by_cases hfirst : k < front.length
        · rw [hbytes, List.getElem?_append_left hfirst] at hget
          refine .inl ⟨hfront x (List.mem_of_getElem? hget), ?_⟩
          rw [chars, List.length_append, hlen]
          omega
        · obtain rfl : k = front.length := by omega
          rw [hbytes, List.getElem?_concat_length] at hget
          obtain rfl := Option.some.inj hget
          exact .inr ⟨hc, hlen.symm, rfl⟩
  · right
    have hle : l.bytes.length ≤ k := Nat.le_of_not_lt hlt
    rw [chars, List.getElem?_append_right hle] at hget
    cases heof : l.eof with
    | true =>
      rw [heof, if_pos rfl] at hget
      have hzero : k - l.bytes.length < [mark].length := by
        by_contra hge
        rw [List.getElem?_eq_none (Nat.le_of_not_lt hge)] at hget
        cases hget
      rw [List.length_singleton] at hzero
      have hk : k = l.bytes.length := by omega
      rw [hk, Nat.sub_self] at hget
      exact ⟨hk, rfl, (Option.some.inj hget).symm⟩
    | false =>
      rw [heof, if_neg Bool.false_ne_true] at hget
      cases hget

theorem Tidy.chars_ne_nil (h : l.Tidy ord nl) : l.chars mark ≠ [] := by
  rw [chars]
  cases heof : l.eof with
  | true => simp
  | false =>
    rw [Tidy, heof, if_neg Bool.false_ne_true] at h
    obtain ⟨front, c, hbytes, -, -⟩ := h
    rw [hbytes]
    simp

end Line

namespace Editor

theorem finished_read (mark : β) (h : e.read n = some (r, e')) :
    ∃ l ls, e.lines = l :: ls ∧ r = l.bytes.take n ∧ e'.line = e.line ∧
      e'.finished mark = (l.chars mark).drop n ++ ls.flatMap (Line.chars mark) := by
  rw [read] at h
  cases hlines : e.lines with
  | nil =>
    rw [hlines] at h
    cases h
  | cons l ls =>
    rw [hlines] at h
    obtain ⟨rfl, rfl⟩ := Prod.mk.inj (Option.some.inj h)
    refine ⟨l, ls, rfl, rfl, rfl, ?_⟩
    rw [finished, List.flatMap_append, Line.chars_rest]

theorem Tidy.read (h : e.Tidy ord nl) (hread : e.read n = some (r, e')) : e'.Tidy ord nl := by
  rw [Editor.read] at hread
  cases hlines : e.lines with
  | nil =>
    rw [hlines] at hread
    cases hread
  | cons l ls =>
    rw [hlines] at hread
    obtain ⟨-, rfl⟩ := Prod.mk.inj (Option.some.inj hread)
    refine ⟨fun l' hl' => ?_, h.line⟩
    have hl : ∀ l' ∈ l :: ls, l'.Tidy ord nl := fun l' hl' => h.lines l' (hlines ▸ hl')
    obtain hl' | hl' := List.mem_append.mp hl'
    · exact (hl l List.mem_cons_self).rest (Option.mem_toList.mp hl')
    · exact hl l' (List.mem_cons_of_mem l hl')

theorem Tidy.press (h : e.Tidy ord nl) {key : Key β} (hkey : key.Fits ord nl) :
    (e.press key).Tidy ord nl := by
  have hfinish : ∀ l : Line β, l.Tidy ord nl → (⟨e.lines ++ [l], []⟩ : Editor β).Tidy ord nl := by
    intro l hl
    refine ⟨fun l' hl' => ?_, fun x hx => absurd hx List.not_mem_nil⟩
    obtain hl' | hl' := List.mem_append.mp hl'
    · exact h.lines l' hl'
    · rwa [List.mem_singleton.mp hl']
  cases key with
  | ignored => exact h
  | erase => exact ⟨h.lines, fun x hx => h.line x (List.dropLast_subset e.line hx)⟩
  | kill => exact ⟨h.lines, fun x hx => absurd hx List.not_mem_nil⟩
  | byte c =>
    refine ⟨h.lines, fun x hx => ?_⟩
    obtain hx | hx := List.mem_append.mp hx
    · exact h.line x hx
    · rw [List.mem_singleton.mp hx]
      exact hkey
  | newline c =>
    refine hfinish _ ?_
    rw [Line.Tidy, if_neg Bool.false_ne_true]
    exact ⟨e.line, c, rfl, hkey, h.line⟩
  | eof =>
    refine hfinish _ ?_
    rw [Line.Tidy, if_pos rfl]
    exact h.line

/-- The finished lines end with a newline or a mark. -/
theorem Tidy.finished_end (h : e.Tidy ord nl) (mark : β) : e.finished mark = [] ∨
    ∃ front c, e.finished mark = front ++ [c] ∧
      (nl c ∨ (c = mark ∧ ∃ l ∈ e.lines, l.eof = true)) := by
  rw [finished]
  cases hlines : e.lines using List.reverseRecOn with
  | nil => exact .inl rfl
  | append_singleton ls l =>
    right
    have hl : l ∈ e.lines := hlines ▸ List.mem_append_right ls (List.mem_singleton_self l)
    have htidy := h.lines l hl
    rw [List.flatMap_append, List.flatMap_singleton, Line.chars]
    rw [Line.Tidy] at htidy
    cases heof : l.eof with
    | true =>
      rw [if_pos rfl, ← List.append_assoc]
      exact ⟨_, mark, rfl, .inr ⟨rfl, l, List.mem_append_right ls (List.mem_singleton_self l),
        heof⟩⟩
    | false =>
      rw [heof, if_neg Bool.false_ne_true] at htidy
      obtain ⟨front, c, hbytes, hc, -⟩ := htidy
      rw [if_neg Bool.false_ne_true, List.append_nil, hbytes, ← List.append_assoc]
      exact ⟨_, c, rfl, .inl hc⟩

end Editor

end LineEditor
