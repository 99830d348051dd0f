/-
What `swap_out` comes to in one call (mm/swap.c).

* `nextDir_iterate` — the directory entries in the order in which they are come to;
* `Within` — the entries that the counter lasts for;
* `swapOutLoop_spec` — the loop ends with the first of these that is not refused;
* `Missed` — the entries that a whole call does not come to;
* `swap_out_complete` — a call fails only if nothing can be swapped out, and else unmaps one
  page, if and only if none of the missed entries alone can be;
* `swap_out_misses` — a call that fails although a page can be swapped out.

Design notes: all that a call stores to until it succeeds are its two cursors, so that each
entry may be tried in the state the call began with.
-/
import Linux012.FrameOps
import Mathlib.Logic.Function.Iterate

namespace Mm

open Function (update)

/-- The cursors of `swap_out` are moved. -/
def Mem.cursor (m : Mem) (d next : ℕ) : Mem := { m with dirEntry := d, pageNext := next }

/-- The values that the cursors have. -/
def CursorOk (d next : ℕ) : Prop := User d ∧ next ≤ 1024

/-- `try_to_swap_out` refuses an entry. -/
def Refused (m : Mem) (t i : ℕ) : Prop := tryToSwapOut m t i = some (false, m)

/-- `try_to_swap_out` swaps out the page of an entry. -/
def Swappable (m : Mem) (d i : ℕ) : Prop :=
  ∃ t m', m.pgDir d = some t ∧ tryToSwapOut m t i = some (true, m')

/-- `free_page` of `try_to_swap_out` panics at an entry. -/
def Fatal (m : Mem) (d i : ℕ) : Prop := ∃ t, m.pgDir d = some t ∧ tryToSwapOut m t i = none

/-- One page is unmapped: its entry is cleared, or names a slot, and the count of its frame is
one less. -/
structure Unmapped (m m' : Mem) (d i : ℕ) : Prop where
  entry : ∃ t p rw dirty e, m.pgDir d = some t ∧ m.table t i = .page p rw dirty ∧
    (e = .zero ∨ ∃ nr, e = .swap nr) ∧
    m'.table = update m.table t (update (m.table t) i e) ∧
    m.memMap (mapNr p) ≠ 0 ∧
    m'.memMap = update m.memMap (mapNr p) ((m.memMap (mapNr p) - 1) % 256)
  pgDir : m'.pgDir = m.pgDir

/-! ### One entry -/

variable {m m' : Mem} {d e i n t p k C : ℕ} {b : Bool} {pgDir : ℕ → Option ℕ}

@[simp] theorem cursor_pgDir : (m.cursor d e).pgDir = m.pgDir := rfl

theorem freePage_cursor :
    freePage (m.cursor d e) p = (freePage m p).map fun m' => m'.cursor d e := by
  rw [freePage, freePage, show (m.cursor d e).highMemory = m.highMemory from rfl,
    show (m.cursor d e).memMap = m.memMap from rfl]
  by_cases hlow : p < lowMem
  · rw [if_pos hlow, if_pos hlow]
    rfl
  rw [if_neg hlow, if_neg hlow]
  by_cases hhigh : m.highMemory ≤ p
  · rw [if_pos hhigh, if_pos hhigh]
    rfl
  rw [if_neg hhigh, if_neg hhigh]
  by_cases hused : m.memMap (mapNr p) ≠ 0
  · rw [if_pos hused, if_pos hused]
    rfl
  · rw [if_neg hused, if_neg hused]
    rfl

theorem freePage_map_cursor : (freePage (m.cursor d e) p).map (fun m' => (true, m')) =
    ((freePage m p).map fun m' => (true, m')).map fun (b, m') => (b, m'.cursor d e) := by
  rw [freePage_cursor, Option.map_map, Option.map_map]
  rfl

theorem getSwapPage_cursor : getSwapPage (m.cursor d e) =
    (getSwapPage m).map fun (nr, m') => (nr, m'.cursor d e) := by
  simp only [getSwapPage, Mem.cursor]
  rcases m.swapBitmap with _ | bits
  · rfl
  · dsimp only
    rcases (List.range' 1 32767).find? bits with _ | nr <;> rfl

/-- What is done with an entry does not depend on the cursors. -/
theorem tryToSwapOut_cursor : tryToSwapOut (m.cursor d e) t i =
    (tryToSwapOut m t i).map fun (b, m') => (b, m'.cursor d e) := by
  rw [tryToSwapOut, tryToSwapOut, show (m.cursor d e).table t i = m.table t i from rfl]
  rcases m.table t i with _ | nr | ⟨p, rw, dirty⟩
  · rfl
  · rfl
  dsimp only
  by_cases hpaged : p < lowMem ∨ pagingPages ≤ p - lowMem
  · rw [if_pos hpaged, if_pos hpaged]
    rfl
  rw [if_neg hpaged, if_neg hpaged]
  cases dirty with
  | true =>
    rw [if_pos rfl, if_pos rfl, show (m.cursor d e).memMap = m.memMap from rfl]
    by_cases hshared : m.memMap (mapNr p) ≠ 1
    · rw [if_pos hshared, if_pos hshared]
      rfl
    rw [if_neg hshared, if_neg hshared, getSwapPage_cursor]
    rcases getSwapPage m with _ | ⟨nr, m₁⟩
    · rfl
    · dsimp only [Option.map_some]
      exact freePage_map_cursor (m := { m₁.setEntry t i (.swap nr) with
        swapDev := update m₁.swapDev nr (m₁.data p) })
  | false =>
    rw [if_neg (by decide), if_neg (by decide)]
    exact freePage_map_cursor (m := m.setEntry t i .zero)

/-- What `try_to_swap_out` comes to. -/
theorem tryToSwapOut_cases (h : tryToSwapOut m t i = some (b, m')) :
    b = false ∧ m' = m ∨ b = true ∧ ∃ p rw dirty e, m.table t i = .page p rw dirty ∧
      (e = .zero ∨ ∃ nr, e = .swap nr) ∧
      m'.table = update m.table t (update (m.table t) i e) ∧ m.memMap (mapNr p) ≠ 0 ∧
      m'.memMap = update m.memMap (mapNr p) ((m.memMap (mapNr p) - 1) % 256) ∧
      m'.pgDir = m.pgDir := by
  rw [tryToSwapOut] at h
  split at h
  case h_2 =>
    cases h
    exact .inl ⟨rfl, rfl⟩
  case h_1 p rw dirty hentry =>
    split at h
    case isTrue =>
      cases h
      exact .inl ⟨rfl, rfl⟩
    case isFalse hpaged =>
      have hp : lowMem ≤ p := by omega
      split at h
      case isTrue =>
        split at h
        case isTrue =>
          cases h
          exact .inl ⟨rfl, rfl⟩
        case isFalse =>
          split at h
          case h_1 =>
            cases h
            exact .inl ⟨rfl, rfl⟩
          case h_2 nr m₁ hswap =>
            obtain ⟨bits, -, -, -, -, rfl⟩ := getSwapPage_eq hswap
            obtain ⟨m₂, hfree, heq⟩ := Option.map_eq_some_iff.mp h
            obtain ⟨rfl, rfl⟩ := Prod.mk.inj heq
            obtain ⟨-, hused, rfl⟩ := freePage_eq hp hfree
            exact .inr ⟨rfl, p, rw, dirty, .swap nr, hentry, .inr ⟨nr, rfl⟩, rfl, hused,
              Mem.setMap_memMap _ _ _, rfl⟩
      case isFalse =>
        obtain ⟨m₂, hfree, heq⟩ := Option.map_eq_some_iff.mp h
        obtain ⟨rfl, rfl⟩ := Prod.mk.inj heq
        obtain ⟨-, hused, rfl⟩ := freePage_eq hp hfree
        exact .inr ⟨rfl, p, rw, dirty, .zero, hentry, .inl rfl, rfl, hused,
          Mem.setMap_memMap _ _ _, rfl⟩

/-! ### The order of the directory entries -/

theorem nextDir_iterate (hd : User d) (n : ℕ) :
    nextDir^[n] d = 16 + (d - 16 + n) % 1008 := by
  induction n with
  | zero =>
    have := hd.1
    have := hd.2
    rw [firstDir] at *
    show d = _
    omega
  | succ n ih =>
    rw [Function.iterate_succ_apply', ih, nextDir, firstDir]
    split <;> omega

theorem iterate_user (hd : User d) (n : ℕ) : User (nextDir^[n] d) := by
  rw [nextDir_iterate hd, User, firstDir]
  omega

/-- The first loop passes over directory entries without a table. -/
theorem skipDirs_spec (pgDir : ℕ → Option ℕ) (k d : ℕ) :
    ∃ s ≤ k, skipDirs pgDir k d = (k - s, nextDir^[s] d) ∧
      (∀ j < s, pgDir (nextDir^[j] d) = none) ∧
      (s < k → (pgDir (nextDir^[s] d)).isSome) := by
  induction k generalizing d with
  | zero => exact ⟨0, le_rfl, rfl, fun j hj => absurd hj (Nat.not_lt_zero j), nofun⟩
  | succ k ih =>
    rw [skipDirs]
    split
    case isTrue hsome =>
      exact ⟨0, Nat.zero_le _, rfl, fun j hj => absurd hj (Nat.not_lt_zero j), fun _ => hsome⟩
    case isFalse hnone =>
      obtain ⟨s, hle, heq, habsent, hpresent⟩ := ih (nextDir d)
      refine ⟨s + 1, by omega, ?_, fun j hj => ?_, fun hlt => ?_⟩
      · rw [heq, Function.iterate_succ_apply]
        congr 1
        omega
      · cases j with
        | zero => exact Option.not_isSome_iff_eq_none.mp hnone
        | succ j =>
          rw [Function.iterate_succ_apply]
          exact habsent j (by omega)
      · rw [Function.iterate_succ_apply]
        exact hpresent (by omega)

/-- The second loop passes over them for as long as the counter is more than 1024. -/
theorem nextTable_spec (pgDir : ℕ → Option ℕ) (k C d : ℕ) (hk : 1 ≤ k) (hC : C ≤ 1024 * k) :
    (∃ a t, nextTable pgDir k C d = (nextDir^[a + 1] d, some (C - 1024 * a, t)) ∧
      pgDir (nextDir^[a + 1] d) = some t ∧ (∀ j < a, pgDir (nextDir^[j + 1] d) = none) ∧
      (a = 0 ∨ 1024 * a < C)) ∨
    ∃ a, nextTable pgDir k C d = (nextDir^[a + 1] d, none) ∧
      (∀ j ≤ a, pgDir (nextDir^[j + 1] d) = none) ∧ C ≤ 1024 * (a + 1) := by
  induction k generalizing C d with
  | zero => omega
  | succ k ih =>
    rw [nextTable]
    rcases ht : pgDir (nextDir d) with _ | t
    · dsimp only
      by_cases hlt : 1024 < C
      · rw [if_pos hlt]
        rcases ih (C - 1024) (nextDir d) (by omega) (by omega) with
          ⟨a, t, heq, hpresent, habsent, hlast⟩ | ⟨a, heq, habsent, hle⟩
        · refine .inl ⟨a + 1, t, ?_, hpresent, fun j hj => ?_, .inr (by omega)⟩
          · rw [heq, show C - 1024 - 1024 * a = C - 1024 * (a + 1) by omega]
            rfl
          · cases j with
            | zero => exact ht
            | succ j => exact habsent j (by omega)
        · refine .inr ⟨a + 1, heq, fun j hj => ?_, by omega⟩
          cases j with
          | zero => exact ht
          | succ j => exact habsent j (by omega)
      · rw [if_neg hlt]
        refine .inr ⟨0, rfl, fun j hj => ?_, by omega⟩
        obtain rfl := Nat.le_zero.mp hj
        exact ht
    · exact .inl ⟨0, t, rfl, ht, fun j hj => absurd hj (Nat.not_lt_zero j), .inl rfl⟩

/-! ### The loop -/

/-- The counter `C` lasts for entry `i` of the table that is `n` directory entries further on,
from entry `e` at `d`: a table behind one that is absent takes one more. -/
def Within (m : Mem) (d e C n i : ℕ) : Prop :=
  1024 * n + i + 1 ≤ C + e ∧ (n = 0 → e ≤ i) ∧
    ∀ a, n = a + 1 → m.pgDir (nextDir^[a] d) = none → 1024 * n + 2 ≤ C + e

/-- A result is that of the first entry that is not refused, or all have been. -/
def Ends (m : Mem) (d e C : ℕ) (r : Option (Bool × Mem)) : Prop :=
  (∃ d' e', CursorOk d' e' ∧ r = some (false, m.cursor d' e') ∧
    ∀ n i t, m.pgDir (nextDir^[n] d) = some t → i < 1024 → Within m d e C n i →
      Refused m t i) ∨
  ∃ n i t d' e', m.pgDir (nextDir^[n] d) = some t ∧ i < 1024 ∧ Within m d e C n i ∧
    ¬ Refused m t i ∧ CursorOk d' e' ∧
    r = (tryToSwapOut m t i).map fun (b, m') => (b, m'.cursor d' e')

/-- Entry `i` of the table `a` directory entries further on is tried, and then the loop goes on
from there. -/
theorem Ends.try {a : ℕ} (c : ℕ) (rest : Mem → Option (Bool × Mem)) (hd : User d)
    (ht : m.pgDir (nextDir^[a] d) = some t) (hi : i < 1024) (hin : Within m d e C a i)
    (hfrom : ∀ n j, Within m d e C n j → j < 1024 → (m.pgDir (nextDir^[n] d)).isSome →
      n = a ∧ j = i ∨ ∃ n', n = n' + a ∧ Within m (nextDir^[a] d) (i + 1) c n' j)
    (hto : ∀ n j, Within m (nextDir^[a] d) (i + 1) c n j → j < 1024 →
      Within m d e C (n + a) j)
    (hrest : Ends m (nextDir^[a] d) (i + 1) c (rest (m.cursor (nextDir^[a] d) (i + 1)))) :
    Ends m d e C (match tryToSwapOut (m.cursor (nextDir^[a] d) (i + 1)) t i with
      | none => none
      | some (true, m) => some (true, m)
      | some (false, m) => rest m) := by
  rw [tryToSwapOut_cursor]
  rcases htry : tryToSwapOut m t i with _ | ⟨_ | _, m'⟩
  · refine .inr ⟨a, i, t, _, _, ht, hi, hin, ?_, ⟨iterate_user hd a, hi⟩, ?_⟩
    · rw [Refused, htry]
      nofun
    · rw [htry]
      rfl
  · obtain rfl : m' = m := by
      rcases tryToSwapOut_cases htry with ⟨-, heq⟩ | ⟨hcon, -⟩
      · exact heq
      · cases hcon
    rcases hrest with
      ⟨d', e', hok, heq, hall⟩ | ⟨n, j, t', d', e', ht', hj, hwithin, hnot, hok, heq⟩
    · refine .inl ⟨d', e', hok, heq, fun n j t' ht' hj hwithin => ?_⟩
      rcases hfrom n j hwithin hj (by rw [ht']; rfl) with ⟨rfl, rfl⟩ | ⟨n', rfl, hwithin'⟩
      · obtain rfl := Option.some.inj (ht.symm.trans ht')
        exact htry
      · rw [Function.iterate_add_apply] at ht'
        exact hall n' j t' ht' hj hwithin'
    · refine .inr ⟨n + a, j, t', d', e', ?_, hj, hto n j hwithin hj, hnot, hok, heq⟩
      rw [Function.iterate_add_apply]
      exact ht'
  · refine .inr ⟨a, i, t, _, _, ht, hi, hin, ?_, ⟨iterate_user hd a, hi⟩, ?_⟩
    · rw [Refused, htry]
      nofun
    · rw [htry]
      rfl

theorem swapOutLoop_spec (hk : C ≤ k) (hC : C ≤ 1024 * vmDirs) (hd : User d) (he : e ≤ 1024)
    (ht : m.pgDir d = some t) : Ends m d e C (swapOutLoop k C t (m.cursor d e)) := by
  induction k generalizing C d e t with
  | zero =>
    obtain rfl : C = 0 := by omega
    refine .inl ⟨d, e, ⟨hd, he⟩, rfl, fun n i t _ hi hwithin => ?_⟩
    obtain ⟨hle, hfirst, -⟩ := hwithin
    omega
  | succ k ih =>
    rcases C with _ | C
    · refine .inl ⟨d, e, ⟨hd, he⟩, rfl, fun n i t _ hi hwithin => ?_⟩
      obtain ⟨hle, hfirst, -⟩ := hwithin
      omega
    rw [swapOutLoop]
    rw [show (m.cursor d e).pageNext = e from rfl]
    by_cases hwrap : 1024 ≤ e
    · obtain rfl : e = 1024 := Nat.le_antisymm he hwrap
      rw [if_pos hwrap]
      rcases nextTable_spec m.pgDir vmDirs C d (by decide) (by omega) with
        ⟨a, t', heq, ht', habsent, hlast⟩ | ⟨a, heq, habsent, hle⟩
      · -- entry 0 of the next table
        rw [show nextTable (m.cursor d 1024).pgDir vmDirs C (m.cursor d 1024).dirEntry = _ from heq]
        refine Ends.try (i := 0) (C - 1024 * a) (swapOutLoop k (C - 1024 * a) t') hd ht'
          (by decide) ?_ ?_ ?_ ?_
        · refine ⟨by omega, fun hn => absurd hn (Nat.succ_ne_zero a), fun a' ha' habs => ?_⟩
          obtain rfl : a' = a := by omega
          rcases hlast with rfl | hlt
          · rw [show nextDir^[0] d = d from rfl, ht] at habs
            cases habs
          · omega
        · rintro n j ⟨hle, hfirst, hprev⟩ hj hpresent
          have hn : a + 1 ≤ n := by
            by_contra hlt
            rcases n with _ | n
            · have := hfirst rfl
              omega
            · rw [habsent n (by omega)] at hpresent
              cases hpresent
          obtain ⟨n', rfl⟩ := Nat.exists_eq_add_of_le' hn
          by_cases hhere : n' = 0 ∧ j = 0
          · obtain ⟨rfl, rfl⟩ := hhere
            exact .inl ⟨Nat.zero_add _, rfl⟩
          · refine .inr ⟨n', rfl, by omega, by omega, fun b hb habs => ?_⟩
            rw [← Function.iterate_add_apply] at habs
            have := hprev (b + (a + 1)) (by omega) habs
            omega
        · rintro n j ⟨hle, -, hprev⟩ hj
          refine ⟨by omega, by omega, fun b hb habs => ?_⟩
          rcases n with _ | n
          · obtain rfl : b = a := by omega
            rcases hlast with rfl | hlt
            · rw [show nextDir^[0] d = d from rfl, ht] at habs
              cases habs
            · omega
          · obtain rfl : b = n + (a + 1) := by omega
            rw [Function.iterate_add_apply] at habs
            have := hprev n rfl habs
            omega
        · exact ih (by omega) (by omega) (iterate_user hd _) (by omega) ht'
      · -- the counter does not last for another one
        rw [show nextTable (m.cursor d 1024).pgDir vmDirs C (m.cursor d 1024).dirEntry = _ from heq]
        refine .inl ⟨nextDir^[a + 1] d, 1, ⟨iterate_user hd _, by decide⟩, rfl,
          fun n i t' ht' hi hwithin => ?_⟩
        exfalso
        obtain ⟨hle', hfirst, hprev⟩ := hwithin
        have hn : a + 2 ≤ n := by
          by_contra hlt
          rcases n with _ | n
          · have := hfirst rfl
            omega
          · rw [habsent n (by omega)] at ht'
            cases ht'
        obtain rfl : n = a + 1 + 1 := by omega
        have := hprev (a + 1) rfl (habsent a le_rfl)
        omega
    · rw [if_neg hwrap]
      -- the next entry of the same table
      refine Ends.try (a := 0) C (swapOutLoop k C t) hd ht (by omega) ?_ ?_ ?_ ?_
      · exact ⟨by omega, fun _ => le_rfl, fun a ha => absurd ha.symm (Nat.succ_ne_zero a)⟩
      · rintro n j ⟨hle, hfirst, hlast⟩ hj -
        by_cases hhere : n = 0 ∧ j = e
        · exact .inl hhere
        · refine .inr ⟨n, rfl, by omega, fun hn => ?_, fun a ha habsent => ?_⟩
          · have := hfirst hn
            omega
          · have := hlast a ha habsent
            omega
      · rintro n j ⟨hle, hfirst, hlast⟩ hj
        refine ⟨by omega, fun hn => ?_, fun a ha habsent => ?_⟩
        · have := hfirst hn
          omega
        · have := hlast a ha habsent
          omega
      · exact ih (by omega) (by omega) hd (by omega) ht

/-! ### A call -/

/-- The directory entry before `d`, the last one before the first of task 1. -/
def prevDir (d : ℕ) : ℕ := if d = firstDir then 1023 else d - 1

/-- The first table from the cursor on. -/
def FirstTable (m : Mem) (d : ℕ) : Prop :=
  ∃ s < vmDirs, d = nextDir^[s] m.dirEntry ∧ (m.pgDir d).isSome ∧
    ∀ j < s, m.pgDir (nextDir^[j] m.dirEntry) = none

/-- The entries before the cursor in the first table are not come to if the table of the cursor
itself is gone; and the first one is not if the cursor is behind it and the table before is
absent. -/
def Missed (m : Mem) (d i : ℕ) : Prop :=
  FirstTable m d ∧ i < m.pageNext ∧
    (m.pgDir m.dirEntry = none ∨ m.pageNext = 1 ∧ m.pgDir (prevDir d) = none)

theorem iterate_prevDir (hd : User d) : nextDir^[1007] d = prevDir d := by
  obtain ⟨hd₁, hd₂⟩ := id hd
  rw [nextDir_iterate hd, prevDir]
  rw [firstDir] at *
  split <;> omega

theorem iterate_cycle (hd : User d) : nextDir^[1008] d = d := by
  obtain ⟨hd₁, hd₂⟩ := id hd
  rw [nextDir_iterate hd]
  rw [firstDir] at hd₁
  omega

/-- All directory entries of tasks are come to. -/
theorem exists_iterate {d' : ℕ} (hd : User d) (hd' : User d') :
    ∃ n < 1008, nextDir^[n] d = d' := by
  obtain ⟨hd₁, hd₂⟩ := id hd
  obtain ⟨hd₁', hd₂'⟩ := hd'
  rw [firstDir] at hd₁ hd₁'
  refine ⟨(d' + 1008 - d) % 1008, Nat.mod_lt _ (by decide), ?_⟩
  rw [nextDir_iterate hd]
  omega

theorem FirstTable.unique {d' : ℕ} (h : FirstTable m d) (h' : FirstTable m d') : d' = d := by
  obtain ⟨s, -, rfl, hsome, habsent⟩ := h
  obtain ⟨s', -, rfl, hsome', habsent'⟩ := h'
  rcases Nat.lt_trichotomy s s' with hlt | rfl | hlt
  · rw [habsent' s hlt] at hsome
    cases hsome
  · rfl
  · rw [habsent s' hlt] at hsome'
    cases hsome'

/-- A call is a loop from the first table on, with 1024 less for each table passed over. -/
theorem swapOut_eq (hd : User m.dirEntry) :
    (∃ s t, s < 1008 ∧ m.pgDir (nextDir^[s] m.dirEntry) = some t ∧
      FirstTable m (nextDir^[s] m.dirEntry) ∧
      (∀ j < s, m.pgDir (nextDir^[j] m.dirEntry) = none) ∧
      swapOut m = swapOutLoop (1024 * (1008 - s)) (1024 * (1008 - s)) t
        (m.cursor (nextDir^[s] m.dirEntry) m.pageNext)) ∨
    (∀ d, User d → m.pgDir d = none) ∧
      ∃ d', User d' ∧ swapOut m = some (false, m.cursor d' m.pageNext) := by
  obtain ⟨s, hle, heq, habsent, hpresent⟩ := skipDirs_spec m.pgDir vmDirs m.dirEntry
  rw [swapOut, heq]
  rcases Nat.lt_or_eq_of_le hle with hlt | rfl
  · obtain ⟨t, ht⟩ := Option.isSome_iff_exists.mp (hpresent hlt)
    refine .inl ⟨s, t, hlt, ht, ⟨s, hlt, rfl, hpresent hlt, habsent⟩, habsent, ?_⟩
    dsimp only
    rw [ht]
    rfl
  · have hnone : ∀ d, User d → m.pgDir d = none := fun d hd' => by
      obtain ⟨n, hn, rfl⟩ := exists_iterate hd hd'
      exact habsent n hn
    refine .inr ⟨hnone, nextDir^[vmDirs] m.dirEntry, iterate_user hd _, ?_⟩
    dsimp only
    rw [hnone _ (iterate_user hd _)]
    rfl

theorem Missed.user (h : Missed m d i) (hd : User m.dirEntry) : User d := by
  obtain ⟨⟨s, -, rfl, -, -⟩, -, -⟩ := h
  exact iterate_user hd s

theorem Missed.lt (h : Missed m d i) (hp : m.pageNext ≤ 1024) : i < 1024 :=
  Nat.lt_of_lt_of_le h.2.1 hp

/-- The counter lasts for the entries that are not missed, and for no other. -/
theorem within_iff {s : ℕ} (hd : User m.dirEntry) (hp : m.pageNext ≤ 1024) (hs : s < 1008)
    (hfirst : FirstTable m (nextDir^[s] m.dirEntry))
    (habsent : ∀ j < s, m.pgDir (nextDir^[j] m.dirEntry) = none) (hd' : User d)
    (hpresent : (m.pgDir d).isSome) (hi : i < 1024) :
    (∃ n, nextDir^[n] (nextDir^[s] m.dirEntry) = d ∧
      Within m (nextDir^[s] m.dirEntry) m.pageNext (1024 * (1008 - s)) n i) ↔
    ¬ Missed m d i := by
  have huser := iterate_user hd s
  constructor
  · rintro ⟨n, rfl, hle, hhere, hprev⟩ ⟨hfirst', hlt, hmiss⟩
    have hsame := hfirst.unique hfirst'
    rw [hsame] at hpresent hmiss
    have hcycle : n % 1008 = 0 := by
      rw [nextDir_iterate huser] at hsame
      obtain ⟨h₁, h₂⟩ := huser
      rw [firstDir] at h₁
      omega
    have hn : n ≠ 0 := fun hn => absurd (hhere hn) (by omega)
    obtain ⟨rfl, rfl⟩ : n = 1008 ∧ s = 0 := by omega
    rcases hmiss with hnone | ⟨hone, hnone⟩
    · rw [show nextDir^[0] m.dirEntry = m.dirEntry from rfl, hnone] at hpresent
      cases hpresent
    · have hlast := hprev 1007 rfl (by rw [iterate_prevDir huser, hnone])
      omega
  · intro hnot
    obtain ⟨n, hn, rfl⟩ := exists_iterate huser hd'
    by_cases hwrap : n = 0 ∧ i < m.pageNext
    · -- the first table is come to once more at the end
      obtain ⟨rfl, hlt⟩ := hwrap
      rw [Missed, not_and, not_and, not_or, not_and] at hnot
      obtain ⟨hcursor, hprev⟩ := hnot hfirst hlt
      obtain rfl : s = 0 := by
        by_contra hs₀
        exact hcursor (habsent 0 (by omega))
      refine ⟨1008, iterate_cycle huser, by omega, by omega, fun a ha habs => ?_⟩
      obtain rfl : a = 1007 := by omega
      rw [iterate_prevDir huser] at habs
      have hone : m.pageNext ≠ 1 := fun hone => hprev hone habs
      omega
    · -- the tables that have been passed over are absent
      have hns : n + s < 1008 := by
        by_contra hge
        have hpast : nextDir^[n] (nextDir^[s] m.dirEntry) =
            nextDir^[n + s - 1008] m.dirEntry := by
          rw [← Function.iterate_add_apply, nextDir_iterate hd, nextDir_iterate hd]
          omega
        rw [hpast, habsent _ (by omega)] at hpresent
        cases hpresent
      exact ⟨n, rfl, by omega, fun hn₀ => by omega, fun a ha _ => by omega⟩

/-- A call ends with the first entry that is not missed and not refused. -/
theorem swapOut_ends (hd : User m.dirEntry) (hp : m.pageNext ≤ 1024) :
    (∃ d' e', CursorOk d' e' ∧ swapOut m = some (false, m.cursor d' e') ∧
      ∀ d i t, User d → i < 1024 → m.pgDir d = some t → ¬ Missed m d i → Refused m t i) ∨
    ∃ d i t d' e', User d ∧ i < 1024 ∧ m.pgDir d = some t ∧ ¬ Missed m d i ∧ ¬ Refused m t i ∧
      CursorOk d' e' ∧
      swapOut m = (tryToSwapOut m t i).map fun (b, m') => (b, m'.cursor d' e') := by
  rcases swapOut_eq hd with ⟨s, t₁, hs, ht₁, hfirst, habsent, heq⟩ | ⟨hnone, d', hok, heq⟩
  · rw [heq]
    have hloop := swapOutLoop_spec (C := 1024 * (1008 - s)) le_rfl (by rw [vmDirs]; omega)
      (iterate_user hd s) hp ht₁
    rcases hloop with
      ⟨d', e', hok, heq', hall⟩ | ⟨n, i, t, d', e', ht, hi, hin, hnot, hok, heq'⟩
    · refine .inl ⟨d', e', hok, heq', fun d i t hd' hi ht hmiss => ?_⟩
      obtain ⟨n, rfl, hin⟩ :=
        (within_iff hd hp hs hfirst habsent hd' (by rw [ht]; rfl) hi).mpr hmiss
      exact hall n i t ht hi hin
    · have huser := iterate_user (iterate_user hd s) n
      refine .inr ⟨_, i, t, d', e', huser, hi, ht, ?_, hnot, hok, heq'⟩
      exact (within_iff hd hp hs hfirst habsent huser (by rw [ht]; rfl) hi).mp ⟨n, rfl, hin⟩
  · refine .inl ⟨d', m.pageNext, ⟨hok, hp⟩, heq, fun d i t hd' _ ht => ?_⟩
    rw [hnone d hd'] at ht
    cases ht

theorem Refused.not_swappable (ht : m.pgDir d = some t) (h : Refused m t i) :
    ¬ Swappable m d i := by
  rintro ⟨t', m', ht', htry⟩
  obtain rfl := Option.some.inj (ht.symm.trans ht')
  rw [h] at htry
  cases htry

theorem Unmapped.cursor (h : Unmapped m m' d i) (d' e' : ℕ) :
    Unmapped m (m'.cursor d' e') d i :=
  ⟨h.entry, h.pgDir⟩

theorem unmapped_of_try (ht : m.pgDir d = some t) (h : tryToSwapOut m t i = some (true, m')) :
    Unmapped m m' d i := by
  rcases tryToSwapOut_cases h with
    ⟨hcon, -⟩ | ⟨-, p, rw, dirty, e, hentry, he, htable, hused, hmap, hdir⟩
  · cases hcon
  · exact ⟨⟨t, p, rw, dirty, e, ht, hentry, he, htable, hused, hmap⟩, hdir⟩

theorem refused_of_try (h : tryToSwapOut m t i = some (false, m')) : Refused m t i := by
  rcases tryToSwapOut_cases h with ⟨-, rfl⟩ | ⟨hcon, -⟩
  · exact h
  · cases hcon

/-- What `swap_out` is for: it fails, and changes nothing, only if no page can be swapped out,
and else it unmaps one page; `free_page` panics only at an entry of a frame that is free. -/
def Completes (m : Mem) : Option (Bool × Mem) → Prop
  | some (false, m') => (∃ d e, m' = m.cursor d e) ∧
    ∀ d i, User d → i < 1024 → ¬ Swappable m d i
  | some (true, m') => ∃ d i, User d ∧ i < 1024 ∧ Unmapped m m' d i
  | none => ∃ d i, User d ∧ i < 1024 ∧ Fatal m d i

/-- A call does what it is for if and only if an entry that it comes to is not refused, or no
entry that it misses can be swapped out. -/
theorem swap_out_complete (hd : User m.dirEntry) (hp : m.pageNext ≤ 1024) :
    Completes m (swapOut m) ↔
      (∃ d i t, User d ∧ i < 1024 ∧ m.pgDir d = some t ∧ ¬ Missed m d i ∧ ¬ Refused m t i) ∨
        ∀ d i, Missed m d i → ¬ Swappable m d i := by
  rcases swapOut_ends hd hp with
    ⟨d', e', -, heq, hall⟩ | ⟨d, i, t, d', e', hd', hi, ht, hmiss, hnot, -, heq⟩
  · rw [heq]
    -- all the entries that are come to have been refused
    constructor
    · rintro ⟨-, hnone⟩
      exact .inr fun d i hmiss hswap => by
        obtain ⟨t, m', ht, -⟩ := id hswap
        exact hnone d i (hmiss.user hd) (hmiss.lt hp) hswap
    · rintro (⟨d, i, t, hd', hi, ht, hmiss, hnot⟩ | hmissed)
      · exact absurd (hall d i t hd' hi ht hmiss) hnot
      · refine ⟨⟨d', e', rfl⟩, fun d i hd' hi hswap => ?_⟩
        obtain ⟨t, m', ht, -⟩ := id hswap
        by_cases hmiss : Missed m d i
        · exact hmissed d i hmiss hswap
        · exact (hall d i t hd' hi ht hmiss).not_swappable ht hswap
  · refine iff_of_true ?_ (.inl ⟨d, i, t, hd', hi, ht, hmiss, hnot⟩)
    rw [heq]
    rcases htry : tryToSwapOut m t i with _ | ⟨_ | _, m'⟩
    · exact ⟨d, i, hd', hi, t, ht, htry⟩
    · exact absurd (refused_of_try htry) hnot
    · exact ⟨d, i, hd', hi, (unmapped_of_try ht htry).cursor d' e'⟩

/-- Memory with one page table, of directory entry 17, that has one page of its own. -/
def oneTable (dirEntry : ℕ) : Mem where
  highMemory := 4096
  memMap := fun n => if n = 45 then 1 else 0
  pgDir := fun d => if d = 17 then some 300 else none
  table := fun t i => if t = 300 ∧ i = 0 then .page 301 true false else .zero
  data := fun _ => zeroPage
  swapBitmap := none
  swapDev := fun _ => zeroPage
  dirEntry := dirEntry
  pageNext := 1

theorem swap_out_complete_oneTable : Completes (oneTable 17) (swapOut (oneTable 17)) ↔
    (∃ d i t, User d ∧ i < 1024 ∧ (oneTable 17).pgDir d = some t ∧
      ¬ Missed (oneTable 17) d i ∧ ¬ Refused (oneTable 17) t i) ∨
      ∀ d i, Missed (oneTable 17) d i → ¬ Swappable (oneTable 17) d i :=
  swap_out_complete (m := oneTable 17) ⟨by decide, by decide⟩ (by decide)

theorem oneTable_refused {d : ℕ} (h : t = 300 → i ≠ 0) : Refused (oneTable d) t i := by
  have hzero : (oneTable d).table t i = .zero := if_neg fun ⟨ht, hi⟩ => h ht hi
  rw [Refused, tryToSwapOut, hzero]

/-- The table of the cursor is gone, and the only page is before the cursor in the first table
from there on: it could be swapped out, and `swap_out` returns 0. -/
theorem swap_out_misses : ∃ m' d' e', swapOut (oneTable 16) = some (false, m') ∧
    m' = (oneTable 16).cursor d' e' ∧ Swappable (oneTable 16) 17 0 := by
  have hmissed : Missed (oneTable 16) 17 0 :=
    ⟨⟨1, by decide, by decide, by decide, by decide⟩, by decide, .inl rfl⟩
  have hrefused : ∀ d i t, (oneTable 16).pgDir d = some t → ¬ Missed (oneTable 16) d i →
      Refused (oneTable 16) t i := fun d i t ht hmiss => by
    refine oneTable_refused fun _ hi => hmiss ?_
    obtain rfl : d = 17 := by
      by_contra hne
      rw [show (oneTable 16).pgDir d = none from if_neg hne] at ht
      cases ht
    rwa [hi]
  rcases swapOut_ends (m := oneTable 16) ⟨by decide, by decide⟩ (by decide) with
    ⟨d', e', -, heq, -⟩ | ⟨d, i, t, d', e', -, -, ht, hmiss, hnot, -, -⟩
  · exact ⟨_, d', e', heq, rfl, 300, _, rfl, rfl⟩
  · exact absurd (hrefused d i t ht hmiss) hnot

end Mm
