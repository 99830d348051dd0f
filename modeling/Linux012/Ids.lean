/-
The user and group ids of a process (kernel/sys.c).

* `setreuid`, `setuid`, `setregid`, `setgid` — the calls that change them, with what they return;
* `call_of_error` — a call that returns an error changes nothing;
* `no_gain` — a process without the ids of the superuser never gets an id that it did not
  start with, whatever it calls.
-/
import Mathlib.Data.List.Basic

namespace Sched

/-- The ids of a `task_struct`, which are `unsigned short`. -/
structure Ids where
  uid : BitVec 16
  euid : BitVec 16
  suid : BitVec 16
  gid : BitVec 16
  egid : BitVec 16
  sgid : BitVec 16
  deriving DecidableEq

/-- `-EPERM`. -/
def EPERM : Int := -1

theorem EPERM_ne_zero : EPERM ≠ 0 := by decide

/-- `current->gid == gid`: the field is promoted to an `int`. -/
def IsId (field : BitVec 16) (id : Int) : Prop := (field.toNat : Int) = id

instance (field : BitVec 16) (id : Int) : Decidable (IsId field id) :=
  inferInstanceAs (Decidable (_ = _))

namespace Ids

/-- `suser`. -/
def Suser (s : Ids) : Prop := s.euid = 0

instance (s : Ids) : Decidable s.Suser := inferInstanceAs (Decidable (_ = _))

/-- The first half of `sys_setregid`; it is `none` for `-EPERM`. -/
def setRgid (s : Ids) (rgid : Int) : Option Ids :=
  if 0 < rgid then
    if IsId s.gid rgid ∨ s.Suser then some { s with gid := .ofInt 16 rgid } else none
  else some s

/-- `sys_setregid`: the ids it leaves, and what it returns. -/
def setregid (s : Ids) (rgid egid : Int) : Ids × Int :=
  match s.setRgid rgid with
  | none => (s, EPERM)
  | some s =>
    if 0 < egid then
      -- the real id is the new one here
      if IsId s.gid egid ∨ IsId s.egid egid ∨ s.Suser then
        ({ s with egid := .ofInt 16 egid, sgid := .ofInt 16 egid }, 0)
      else (s, EPERM)
    else (s, 0)

/-- `sys_setgid`. -/
def setgid (s : Ids) (gid : Int) : Ids × Int :=
  if s.Suser then
    ({ s with gid := .ofInt 16 gid, egid := .ofInt 16 gid, sgid := .ofInt 16 gid }, 0)
  else if IsId s.gid gid ∨ IsId s.sgid gid then ({ s with egid := .ofInt 16 gid }, 0)
  else (s, EPERM)

/-- The first half of `sys_setreuid`. -/
def setRuid (s : Ids) (ruid : Int) : Option Ids :=
  if 0 < ruid then
    if IsId s.euid ruid ∨ IsId s.uid ruid ∨ s.Suser then some { s with uid := .ofInt 16 ruid }
    else none
  else some s

/-- `sys_setreuid`. -/
def setreuid (s : Ids) (ruid euid : Int) : Ids × Int :=
  let oldRuid := s.uid
  match s.setRuid ruid with
  | none => (s, EPERM)
  | some s =>
    if 0 < euid then
      if IsId oldRuid euid ∨ IsId s.euid euid ∨ s.Suser then
        ({ s with euid := .ofInt 16 euid, suid := .ofInt 16 euid }, 0)
      else ({ s with uid := oldRuid }, EPERM)
    else (s, 0)

/-- `sys_setuid`. -/
def setuid (s : Ids) (uid : Int) : Ids × Int :=
  if s.Suser then
    ({ s with uid := .ofInt 16 uid, euid := .ofInt 16 uid, suid := .ofInt 16 uid }, 0)
  else if IsId s.uid uid ∨ IsId s.suid uid then ({ s with euid := .ofInt 16 uid }, 0)
  else (s, EPERM)

end Ids

/-- A call that changes the ids, with its `int` arguments. -/
inductive IdCall where
  | setreuid (ruid euid : Int)
  | setuid (uid : Int)
  | setregid (rgid egid : Int)
  | setgid (gid : Int)

namespace Ids

def call (s : Ids) : IdCall → Ids × Int
  | .setreuid ruid euid => s.setreuid ruid euid
  | .setuid uid => s.setuid uid
  | .setregid rgid egid => s.setregid rgid egid
  | .setgid gid => s.setgid gid

/-- The ids after some calls. -/
def run (s : Ids) (calls : List IdCall) : Ids := calls.foldl (fun s c => (s.call c).1) s

def users (s : Ids) : List (BitVec 16) := [s.uid, s.euid, s.suid]

def groups (s : Ids) : List (BitVec 16) := [s.gid, s.egid, s.sgid]

/-! ### What a call leaves -/

variable {s s' : Ids} {id rid eid : Int}

/-- An id that passes its check is stored as it is. -/
theorem ofInt_eq {field : BitVec 16} (h : IsId field id) : BitVec.ofInt 16 id = field := by
  rw [← (h : (field.toNat : Int) = id), BitVec.ofInt_natCast, BitVec.ofNat_toNat,
    BitVec.setWidth_eq]

/-- Only the superuser changes the real group id. -/
theorem setRgid_cases (h : s.setRgid rid = some s') : s' = s ∨ s.Suser ∧ s'.Suser := by
  rw [setRgid] at h
  split at h
  case isFalse => exact .inl (Option.some.inj h).symm
  case isTrue =>
    split at h
    case isFalse => cases h
    case isTrue hid =>
      obtain rfl := Option.some.inj h
      rcases hid with hid | hs
      · rw [ofInt_eq hid]
        exact .inl rfl
      · exact .inr ⟨hs, hs⟩

/-- The real user id becomes the effective one, or stays. -/
theorem setRuid_cases (h : s.setRuid rid = some s') :
    ∃ x, s' = { s with uid := x } ∧ (x ∈ s.users ∨ s.Suser) := by
  rw [setRuid] at h
  split at h
  case isFalse => exact ⟨s.uid, (Option.some.inj h).symm, .inl (by simp [users])⟩
  case isTrue =>
    split at h
    case isFalse => cases h
    case isTrue hid =>
      refine ⟨_, (Option.some.inj h).symm, ?_⟩
      rcases hid with hid | hid | hs
      · exact .inl (by simp [users, ofInt_eq hid])
      · exact .inl (by simp [users, ofInt_eq hid])
      · exact .inr hs

/-- A call that returns an error changes nothing. -/
theorem call_of_error {c : IdCall} (h : (s.call c).2 ≠ 0) : (s.call c).1 = s := by
  cases c with
  | setreuid ruid euid =>
    rw [call, setreuid] at h ⊢
    split at h
    case h_1 => rfl
    case h_2 s₁ h₁ =>
      obtain ⟨x, rfl, -⟩ := setRuid_cases h₁
      split_ifs at h ⊢
      case neg => rfl
      all_goals exact absurd rfl h
  | setuid uid =>
    rw [call, setuid] at h ⊢
    split_ifs at h ⊢
    case neg => rfl
    all_goals exact absurd rfl h
  | setregid rgid egid =>
    rw [call, setregid] at h ⊢
    split at h
    case h_1 => rfl
    case h_2 s₁ h₁ =>
      split_ifs at h ⊢ with hpos hid
      · exact absurd rfl h
      · -- the superuser passes the second check, and another has not changed the real id
        rcases setRgid_cases h₁ with heq | ⟨-, hs⟩
        · exact heq
        · exact absurd (.inr (.inr hs)) hid
      · exact absurd rfl h
  | setgid gid =>
    rw [call, setgid] at h ⊢
    split_ifs at h ⊢
    case neg => rfl
    all_goals exact absurd rfl h

/-- A process that is not the superuser gets its ids from those it has. -/
theorem call_subset {c : IdCall} (h : ¬ s.Suser) :
    (s.call c).1.users ⊆ s.users ∧ (s.call c).1.groups ⊆ s.groups := by
  by_cases herr : (s.call c).2 ≠ 0
  · rw [call_of_error herr]
    exact ⟨List.Subset.refl _, List.Subset.refl _⟩
  cases c with
  | setreuid ruid euid =>
    rw [call, setreuid] at herr ⊢
    split at herr
    case h_1 => exact absurd EPERM_ne_zero herr
    case h_2 s₁ h₁ =>
      obtain ⟨x, rfl, hx⟩ := setRuid_cases h₁
      have hx := hx.resolve_right h
      refine ⟨?_, ?_⟩
      · split_ifs at herr ⊢ with hpos hid
        · have heuid : BitVec.ofInt 16 euid ∈ s.users := by
            rcases hid with hid | hid | hs
            · simp [users, ofInt_eq hid]
            · simp [users, ofInt_eq hid]
            · exact absurd hs h
          simp [users] at hx heuid ⊢
          tauto
        · exact absurd EPERM_ne_zero herr
        · simp [users] at hx ⊢
          tauto
      · split_ifs <;> exact List.Subset.refl _
  | setuid uid =>
    rw [call, setuid, if_neg h] at herr ⊢
    split_ifs at herr ⊢ with hid
    · refine ⟨?_, List.Subset.refl _⟩
      rcases hid with hid | hid <;> simp [users, ofInt_eq hid]
    · exact absurd EPERM_ne_zero herr
  | setregid rgid egid =>
    rw [call, setregid] at herr ⊢
    split at herr
    case h_1 => exact absurd EPERM_ne_zero herr
    case h_2 s₁ h₁ =>
      obtain rfl := (setRgid_cases h₁).resolve_right fun hs => h hs.1
      split_ifs at herr ⊢ with hpos hid
      · refine ⟨List.Subset.refl _, ?_⟩
        rcases hid with hid | hid | hs
        · simp [groups, ofInt_eq hid]
        · simp [groups, ofInt_eq hid]
        · exact absurd hs h
      · exact absurd EPERM_ne_zero herr
      · exact ⟨List.Subset.refl _, List.Subset.refl _⟩
  | setgid gid =>
    rw [call, setgid, if_neg h] at herr ⊢
    split_ifs at herr ⊢ with hid
    · refine ⟨List.Subset.refl _, ?_⟩
      rcases hid with hid | hid <;> simp [groups, ofInt_eq hid]
    · exact absurd EPERM_ne_zero herr

/-- A process that has no id of the superuser stays one. -/
theorem not_suser (h : ∀ x ∈ s.users, x ≠ 0) : ¬ s.Suser := h s.euid (by simp [users])

/-- Whatever it calls, a process gets no id that it did not start with. -/
theorem run_subset (calls : List IdCall) (h : ∀ x ∈ s.users, x ≠ 0) :
    (s.run calls).users ⊆ s.users ∧ (s.run calls).groups ⊆ s.groups := by
  induction calls generalizing s with
  | nil => exact ⟨List.Subset.refl _, List.Subset.refl _⟩
  | cons c calls ih =>
    have hcall := call_subset (c := c) (not_suser h)
    obtain ⟨hu, hg⟩ := ih fun x hx => h x (hcall.1 hx)
    exact ⟨List.Subset.trans hu hcall.1, List.Subset.trans hg hcall.2⟩

/-- A process that is not the superuser in any of its user ids keeps within its user ids and
its group ids, and a call that returns an error leaves them all as they were. -/
theorem no_gain (s : Ids) (h : ∀ x ∈ s.users, x ≠ 0) (calls : List IdCall) :
    (s.run calls).users ⊆ s.users ∧ (s.run calls).groups ⊆ s.groups ∧
      ∀ c, ((s.run calls).call c).2 ≠ 0 → ((s.run calls).call c).1 = s.run calls := by
  obtain ⟨hu, hg⟩ := run_subset calls h
  exact ⟨hu, hg, fun c => call_of_error⟩

/-- A set-user-id program that swaps its user ids. -/
theorem no_gain_swapped :
    ((⟨100, 200, 200, 5, 6, 6⟩ : Ids).run [.setreuid 200 100]).users ⊆
        (⟨100, 200, 200, 5, 6, 6⟩ : Ids).users :=
  (no_gain ⟨100, 200, 200, 5, 6, 6⟩ (by simp [users]) [.setreuid 200 100]).1

end Ids

end Sched
