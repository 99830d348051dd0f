/-
Which requests the drivers for block devices serve (hd.c, floppy.c and ramdisk.c of
kernel/blk_drv).

* `Hd.Served` — in every run the driver stays inside the partition and the table for a request,
  and ends it well only when all of its sectors were transferred;
* `RamDisk` — `do_rd_request`, which copies at once;
* `complete_transfers` — for blocks and for pages, with any sector and minor device, each of the
  three drivers serves exactly the requests that fit.
-/
import Linux012.Floppy

namespace Blk

namespace Hd

variable {c : Drives} {s s' : Hd} {j : Job} {k : ℕ}

/-- The test of `do_hd_request` does not wrap. -/
def Plain (c : Drives) (r : DriverRequest) : Prop := r.minor < 5 * c.nrHd → r.sector + 2 < 2 ^ 32

/-- The first `k` sectors of a request were transferred, and no more when it has ended well. -/
def Partly (c : Drives) (p : Job × Bool) (k : ℕ) : Prop :=
  p.1.done = moved c p.1.asked k ∧ k ≤ p.1.asked.nrSectors ∧ (0 < k → Granted c p.1.asked) ∧
    (p.2 = true → k = p.1.asked.nrSectors)

structure Tracked (c : Drives) (s : Hd) : Prop where
  jobs : ∀ j ∈ s.queue, Plain c j.asked → ∃ k, Progress c j k
  ended : ∀ p ∈ s.ended, Plain c p.1.asked → ∃ k, Partly c p k

/-- The controller is where the current request goes on. -/
def At (c : Drives) (s : Hd) (j : Job) : Prop :=
  Granted c j.asked ∧ s.drive = j.now.minor / 5 ∧
    s.lba = (c.hd j.now.minor).startSect + j.now.sector

/-- What the driver waits for, whatever has failed. -/
def Expects (c : Drives) (s : Hd) : Prop :=
  match s.doHd with
  | none => s.queue = []
  | some .recalIntr | some .resetHd => s.queue ≠ []
  | some .readIntr => ∃ j ∈ s.queue.head?, Plain c j.asked → j.now.write = false ∧ At c s j
  | some .writeIntr => ∃ j ∈ s.queue.head?, Plain c j.asked → j.now.write = true ∧ At c s j ∧
      s.sent = j.now.buffer

structure Follows (c : Drives) (s : Hd) : Prop where
  tracked : Tracked c s
  expects : s.fault = false → s.running = false → Expects c s

theorem Tracked.congr (h : Tracked c s) (hq : s'.queue = s.queue) (he : s'.ended = s.ended) :
    Tracked c s' :=
  ⟨hq ▸ h.jobs, he ▸ h.ended⟩

/-- The current request goes on, changed. -/
theorem Tracked.set (h : Tracked c s) {queue : List Job} (hq : s.queue = j :: queue) (j' : Job)
    (hj' : Plain c j'.asked → ∃ k, Progress c j' k) :
    Tracked c { s with queue := j' :: queue } := by
  refine ⟨fun i hi => ?_, h.ended⟩
  rcases List.mem_cons.mp hi with rfl | hi
  · exact hj'
  · exact h.jobs i (by rw [hq]; exact List.mem_cons_of_mem _ hi)

/-- The current request ends. -/
theorem Tracked.finish (h : Tracked c s) {queue : List Job} (hq : s.queue = j :: queue)
    {p : Job × Bool} (hp : Plain c p.1.asked → ∃ k, Partly c p k) :
    Tracked c { s with queue := queue, ended := s.ended ++ [p] } := by
  refine ⟨fun i hi => h.jobs i (by rw [hq]; exact List.mem_cons_of_mem _ hi), fun p' hp' => ?_⟩
  rcases List.mem_append.mp hp' with hp' | hp'
  · exact h.ended p' hp'
  · rw [List.mem_singleton.mp hp']
    exact hp

theorem Progress.partly (h : Progress c j k) : Partly c (j, false) k := by
  have hleft := h.left
  exact ⟨h.done, by dsimp only; omega, h.granted, nofun⟩

theorem Tracked.endRequest (h : Tracked c s) : Tracked c (s.endRequest false) := by
  rw [Hd.endRequest]
  split
  case h_1 => exact h.congr rfl rfl
  case h_2 j queue hq =>
    refine h.finish hq fun hplain => ?_
    obtain ⟨k, hj⟩ := h.jobs j (by rw [hq]; exact List.mem_cons_self) hplain
    exact ⟨k, hj.partly⟩

theorem Tracked.countError (h : Tracked c s) : Tracked c s.countError := by
  by_cases hnil : s.queue = []
  · rw [Hd.countError, hnil]
    exact h.congr hnil.symm rfl
  · obtain ⟨j, queue, hq⟩ := List.exists_cons_of_ne_nil hnil
    have hj := h.jobs j (by rw [hq]; exact List.mem_cons_self)
    rw [countError_cons hq]
    split
    case isTrue =>
      refine h.finish hq fun hplain => ?_
      obtain ⟨k, hj⟩ := hj hplain
      exact ⟨k, hj.partly⟩
    case isFalse hmax =>
      refine h.set hq _ fun hplain => ?_
      obtain ⟨k, hj⟩ := hj hplain
      exact ⟨k, hj.failed (not_le.mp hmax)⟩

/-- `bad_rw_intr` finds a request afterwards, or there is a fault. -/
theorem Tracked.badRwIntr (h : Tracked c s) :
    Tracked c s.badRwIntr ∧ (s.badRwIntr.fault = false → s.badRwIntr.queue ≠ []) := by
  rw [Hd.badRwIntr]
  split
  case h_1 =>
    exact ⟨h.countError.congr rfl rfl, fun hfault => absurd hfault.symm Bool.false_ne_true⟩
  case h_2 j queue hq =>
    have hne : s.countError.queue ≠ [] := by
      rw [hq]
      exact List.cons_ne_nil _ _
    split
    case isTrue => exact ⟨h.countError.congr rfl rfl, fun _ => hne⟩
    case isFalse => exact ⟨h.countError, fun _ => hne⟩

/-- After a step that leaves `do_hd_request` to go on. -/
theorem Tracked.follows (h : Tracked c s) : Follows c { s with running := true } :=
  ⟨h.congr rfl rfl, fun _ hrun => absurd hrun (by simp)⟩

theorem follows_resetHd (h : Tracked c s) (hne : s.fault = false → s.queue ≠ []) (ok : Bool) :
    Follows c (s.resetHd c ok) := by
  obtain ⟨s₁, hs₁, hk₁, hne₁⟩ : ∃ s₁, (if s.reset ∨ ok then s else s.badRwIntr) = s₁ ∧
      Tracked c s₁ ∧ (s₁.fault = false → s₁.queue ≠ []) := by
    refine ⟨_, rfl, ?_⟩
    split
    case isTrue => exact ⟨h, hne⟩
    case isFalse => exact h.badRwIntr
  obtain ⟨s₂, hs₂, hk₂, hne₂⟩ : ∃ s₂,
      (if s₁.reset then { s₁ with reset := false, i := -1 } else s₁) = s₂ ∧ Tracked c s₂ ∧
        (s₂.fault = false → s₂.queue ≠ []) := by
    refine ⟨_, rfl, ?_⟩
    split
    case isTrue => exact ⟨hk₁.congr rfl rfl, hne₁⟩
    case isFalse => exact ⟨hk₁, hne₁⟩
  rw [Hd.resetHd, hs₁]
  dsimp only
  rw [hs₂]
  split
  case isTrue => exact ⟨hk₂.congr rfl rfl, fun hfault _ => hne₂ hfault⟩
  case isFalse => exact ⟨hk₂.congr rfl rfl, fun _ hrun => absurd hrun (by simp)⟩

theorem follows_doHdRequest (h : Tracked c s) (hrun : s.running = true) (drq : Bool) :
    Follows c (s.doHdRequest c drq) := by
  rw [Hd.doHdRequest]
  split
  case h_1 hq => exact ⟨h.congr rfl rfl, fun _ _ => hq⟩
  case h_2 j queue hq =>
    have hmem : j ∈ s.queue.head? := by
      rw [hq]
      rfl
    have hne : s.queue ≠ [] := by
      rw [hq]
      exact List.cons_ne_nil _ _
    split
    case isTrue =>
      rw [endRequest_cons hq]
      refine ⟨?_, fun _ hwait => absurd hwait (by simp [hrun])⟩
      rw [← endRequest_cons hq]
      exact h.endRequest
    case isFalse hr =>
      have hat : ∀ handler, Plain c j.asked → At c (s.hdOut c j.now handler) j := by
        intro handler hplain
        obtain ⟨k, hj⟩ := h.jobs j (List.mem_of_mem_head? hmem) hplain
        exact ⟨hj.granted_of_not hr, rfl, hj.lba_eq hr⟩
      split
      case isTrue =>
        refine follows_resetHd ?_ ?_ true
        · exact h.congr rfl rfl
        · exact fun _ => hne
      case isFalse =>
        split
        case isTrue => exact ⟨h.congr rfl rfl, fun _ _ => hne⟩
        case isFalse =>
          split
          case isTrue hw =>
            dsimp only
            split
            case isTrue =>
              exact ⟨h.congr rfl rfl, fun _ _ => ⟨j, hmem, fun hp => ⟨hw, hat .writeIntr hp, rfl⟩⟩⟩
            case isFalse =>
              have hout : Tracked c (s.hdOut c j.now .writeIntr) := h.congr rfl rfl
              refine ⟨hout.badRwIntr.1, fun _ hwait => ?_⟩
              rw [running_badRwIntr] at hwait
              exact absurd hwait (by simp [hdOut, hrun])
          case isFalse hw =>
            exact ⟨h.congr rfl rfl, fun _ _ =>
              ⟨j, hmem, fun hp => ⟨by simpa using hw, hat .readIntr hp⟩⟩⟩

/-- The last sector of a request was transferred. -/
theorem Progress.ended (h : Progress c j k) (hgranted : Granted c j.asked) {j' : Job}
    (hlast : j.now.nrSectors - 1 = 0) (hasked : j'.asked = j.asked)
    (hdone : j'.done = moved c j.asked (k + 1)) : Partly c (j', true) (k + 1) := by
  have hleft := h.left
  have hpos := h.pos
  have hall : k + 1 = j'.asked.nrSectors := by
    rw [hasked]
    omega
  exact ⟨hasked ▸ hdone, Nat.le_of_eq hall, fun _ => hasked ▸ hgranted, fun _ => hall⟩

theorem follows_readIntr (h : Tracked c s) {queue : List Job} (hq : s.queue = j :: queue)
    (hat : Plain c j.asked → j.now.write = false ∧ At c s j) (ok : Bool) :
    Follows c (s.readIntr ok) := by
  have hj := h.jobs j (by rw [hq]; exact List.mem_cons_self)
  rw [Hd.readIntr]
  split
  case isTrue => exact h.badRwIntr.1.follows
  case isFalse =>
    rw [show s.buffer = j.now.buffer by rw [Hd.buffer, hq], transfer_cons hq]
    dsimp only
    split
    case isTrue hmore =>
      have hmore : 0 < j.now.nrSectors - 1 := Nat.pos_of_ne_zero hmore
      refine ⟨(h.set hq ⟨j.now.readOn, j.asked, _⟩ fun hplain => ?_).congr rfl rfl,
        fun _ _ => ⟨_, rfl, fun hplain => ?_⟩⟩
      · obtain ⟨k, hk⟩ := hj hplain
        obtain ⟨hw, hgranted, hdrive, hlba⟩ := hat hplain
        exact ⟨k + 1, hk.next hgranted hmore rfl (hk.done_next hdrive hlba rfl hw)
          (Nat.succ_pos 6) rfl⟩
      · obtain ⟨hw, hgranted, hdrive, hlba⟩ := hat hplain
        refine ⟨hw, hgranted, hdrive, ?_⟩
        show s.lba + 1 = (c.hd j.now.minor).startSect + (j.now.sector + 1)
        rw [hlba, Nat.add_assoc]
    case isFalse hlast =>
      have hlast : j.now.nrSectors - 1 = 0 := of_not_not hlast
      rw [endRequest_cons rfl]
      refine Tracked.follows (h.finish hq fun hplain => ?_)
      obtain ⟨k, hk⟩ := hj hplain
      obtain ⟨hw, hgranted, hdrive, hlba⟩ := hat hplain
      exact ⟨k + 1, hk.ended hgranted hlast rfl (hk.done_next hdrive hlba rfl hw)⟩

theorem follows_writeIntr (h : Tracked c s) {queue : List Job} (hq : s.queue = j :: queue)
    (hat : Plain c j.asked → j.now.write = true ∧ At c s j ∧ s.sent = j.now.buffer) (ok : Bool) :
    Follows c (s.writeIntr ok) := by
  have hj := h.jobs j (by rw [hq]; exact List.mem_cons_self)
  rw [Hd.writeIntr]
  split
  case isTrue => exact h.badRwIntr.1.follows
  case isFalse =>
    rw [transfer_cons hq]
    dsimp only
    split
    case isTrue hmore =>
      have hmore : 0 < j.now.nrSectors - 1 := Nat.pos_of_ne_zero hmore
      refine ⟨(h.set hq (Job.writeOn ⟨j.now.written, j.asked, _⟩) fun hplain => ?_).congr rfl
        rfl, fun _ _ => ⟨_, rfl, fun hplain => ?_⟩⟩
      · obtain ⟨k, hk⟩ := hj hplain
        obtain ⟨hw, ⟨hgranted, hdrive, hlba⟩, hsent⟩ := hat hplain
        exact ⟨k + 1, hk.next hgranted hmore rfl (hk.done_next hdrive hlba hsent hw) hk.errors rfl⟩
      · obtain ⟨hw, ⟨hgranted, hdrive, hlba⟩, -⟩ := hat hplain
        refine ⟨hw, ⟨hgranted, hdrive, ?_⟩, rfl⟩
        show s.lba + 1 = (c.hd j.now.minor).startSect + (j.now.sector + 1)
        rw [hlba, Nat.add_assoc]
    case isFalse hlast =>
      have hlast : j.now.nrSectors - 1 = 0 := of_not_not hlast
      rw [endRequest_cons rfl]
      refine Tracked.follows (h.finish hq fun hplain => ?_)
      obtain ⟨k, hk⟩ := hj hplain
      obtain ⟨hw, ⟨hgranted, hdrive, hlba⟩, hsent⟩ := hat hplain
      exact ⟨k + 1, hk.ended hgranted hlast rfl (hk.done_next hdrive hlba hsent hw)⟩

theorem follows_interrupt (h : Follows c s) (hfault : s.fault = false) (hrun : s.running = false)
    (ok : Bool) : Follows c (s.interrupt c ok) := by
  have hexpects := h.expects hfault hrun
  have htracked : Tracked c { s with doHd := none } := h.tracked.congr rfl rfl
  rw [Hd.interrupt]
  rw [Expects] at hexpects
  split at hexpects
  case h_1 hnone =>
    rw [hnone]
    exact ⟨h.tracked.congr rfl rfl, fun _ hr => absurd hr (by simp)⟩
  case h_2 hrecal =>
    rw [hrecal]
    dsimp only
    rw [Hd.recalIntr]
    split
    case isTrue => exact htracked.follows
    case isFalse => exact htracked.badRwIntr.1.follows
  case h_3 hreset =>
    rw [hreset]
    exact follows_resetHd htracked (fun _ => hexpects) ok
  case h_4 hread =>
    rw [hread]
    obtain ⟨j, hj, hat⟩ := hexpects
    obtain ⟨queue, hq⟩ := List.head?_eq_some_iff.mp hj
    exact follows_readIntr htracked hq hat ok
  case h_5 hwrite =>
    rw [hwrite]
    obtain ⟨j, hj, hat⟩ := hexpects
    obtain ⟨queue, hq⟩ := List.head?_eq_some_iff.mp hj
    exact follows_writeIntr htracked hq hat ok

theorem follows_hdTimesOut (h : Follows c s) : Follows c s.hdTimesOut := by
  rw [hdTimesOut]
  split
  case isTrue => exact h
  case isFalse =>
    exact ⟨h.tracked.countError.congr rfl rfl, fun _ hr => absurd hr (by simp)⟩

theorem Expects.congr (h : Expects c s) (hdo : s'.doHd = s.doHd)
    (hq : s'.queue.head? = s.queue.head?) (hdrive : s'.drive = s.drive) (hlba : s'.lba = s.lba)
    (hsent : s'.sent = s.sent) : Expects c s' := by
  have hnil : s'.queue = [] ↔ s.queue = [] := by
    rw [← List.head?_eq_none_iff, hq, List.head?_eq_none_iff]
  have hat : ∀ j, At c s' j ↔ At c s j := fun j => by rw [At, At, hdrive, hlba]
  rw [Expects, hdo, hq, hsent, Ne, hnil]
  simp only [hat]
  exact h

theorem follows_addRequest (h : Follows c s) (hfault : s.fault = false) (hrun : s.running = false)
    {r : DriverRequest} (hr : Plain c r → Progress c ⟨r, r, []⟩ 0) (k : ℕ) :
    Follows c (s.addRequest r k) := by
  rw [addRequest]
  split
  case h_1 hq =>
    refine ⟨⟨fun j hj => ?_, h.tracked.ended⟩, fun _ hr => absurd hr (by simp)⟩
    rw [List.mem_singleton.mp hj]
    exact fun hplain => ⟨0, hr hplain⟩
  case h_2 j queue hq =>
    have hold : ∀ i ∈ j :: queue, Plain c i.asked → ∃ k, Progress c i k := fun i hi =>
      h.tracked.jobs i (by rw [hq]; exact hi)
    refine ⟨⟨fun i hi => ?_, h.tracked.ended⟩, fun _ _ => ?_⟩
    · rcases List.mem_cons.mp hi with rfl | hi
      · exact hold _ List.mem_cons_self
      · rcases List.mem_append.mp hi with hi | hi
        · exact hold i (List.mem_cons_of_mem _ (List.mem_of_mem_take hi))
        · rcases List.mem_cons.mp hi with rfl | hi
          · exact fun hplain => ⟨0, hr hplain⟩
          · exact hold i (List.mem_cons_of_mem _ (List.mem_of_mem_drop hi))
    · refine (h.expects hfault hrun).congr rfl ?_ rfl rfl rfl
      rw [hq, List.head?_cons]
      rfl

theorem follows_step (h : Follows c s) {e : Event} (hs : s.step c e = some s') :
    Follows c s' := by
  unfold Hd.step at hs
  split at hs
  case isTrue => cases hs
  case isFalse hfault =>
    have hfault : s.fault = false := by simpa using hfault
    cases e with
    | add minor write page nr buffer k =>
      dsimp only at hs
      split at hs
      case isTrue => cases hs
      case isFalse hrun =>
        cases hs
        exact follows_addRequest h hfault (by simpa using hrun) (fun hp => progress_request hp) k
    | interrupt ok =>
      dsimp only at hs
      split at hs
      case isTrue => cases hs
      case isFalse hrun =>
        cases hs
        exact follows_interrupt h hfault (by simpa using hrun) ok
    | timeout =>
      dsimp only at hs
      split at hs
      case isTrue => cases hs
      case isFalse =>
        cases hs
        exact follows_hdTimesOut h
    | proceed drq =>
      dsimp only at hs
      split at hs
      case isFalse => cases hs
      case isTrue hrun =>
        cases hs
        exact follows_doHdRequest h.tracked hrun drq

/-- In every run, whatever fails. -/
theorem followed (h : (system c).Reachable s) : Follows c s := by
  refine System.Reach.invariant (I := Follows c) (fun s hs => ?_)
    (fun s e s' hi _ hs => follows_step hi hs) h
  obtain ⟨hq, he, hd, -, -⟩ := hs
  refine ⟨⟨?_, ?_⟩, fun _ _ => ?_⟩
  · rw [hq]
    exact nofun
  · rw [he]
    exact nofun
  · rw [Expects, hd]
    exact hq

/-! ### Which requests are served -/

/-- For a request the driver stays in the tables and in the partition, and ends it well only when
all of its sectors were transferred. -/
structure Served (c : Drives) (r : DriverRequest) (s : Hd) : Prop where
  /-- `hd` and `hd_info` are read for a minor device below `5 * NR_HD` -/
  entries : r.minor < 5 * c.nrHd → r.minor < 10 ∧ r.minor / 5 < 2
  complete : ∀ p ∈ s.ended, p.1.asked = r → p.2 = true → p.1.done = moved c r r.nrSectors
  inside : ∀ j ∈ s.queue ++ s.ended.map Prod.fst, j.asked = r → ∀ t ∈ j.done,
    (c.hd r.minor).startSect ≤ t.lba ∧
      t.lba < (c.hd r.minor).startSect + (c.hd r.minor).nrSects
  /-- the sectors that the controller goes through -/
  command : s.fault = false → s.running = false →
    s.doHd = some .readIntr ∨ s.doHd = some .writeIntr → ∀ j ∈ s.queue.head?, j.asked = r →
      (c.hd r.minor).startSect ≤ s.lba ∧
        s.lba + j.now.nrSectors ≤ (c.hd r.minor).startSect + (c.hd r.minor).nrSects

/-- The request is inside its partition, or is found to be outside. -/
def Fits (c : Drives) (r : DriverRequest) : Prop :=
  5 * c.nrHd ≤ r.minor ∨ ((c.hd r.minor).nrSects < r.sector + 2 ∧ r.sector + 2 < 2 ^ 32) ∨
    r.sector + r.nrSectors ≤ (c.hd r.minor).nrSects

/-- A request that fits and is granted is inside its partition. -/
theorem Fits.granted {r : DriverRequest} (h : Fits c r) (hg : Granted c r) :
    r.sector + r.nrSectors ≤ (c.hd r.minor).nrSects := by
  obtain ⟨hminor, hsector⟩ := hg
  rcases h with hout | ⟨hout, -⟩ | hin
  · omega
  · omega
  · exact hin

theorem Fits.plain {r : DriverRequest} (h : Fits c r) (hnr : 2 ≤ r.nrSectors) : Plain c r := by
  intro hminor
  rcases h with hout | ⟨-, hwrap⟩ | hin
  · omega
  · exact hwrap
  · have hlt := inside_lt hminor
    omega

/-- What was transferred for a request that fits is inside its partition. -/
theorem Fits.inside {r : DriverRequest} (h : Fits c r) (hg : 0 < k → Granted c r)
    (hk : k ≤ r.nrSectors) {t : Transfer} (ht : t ∈ moved c r k) :
    (c.hd r.minor).startSect ≤ t.lba ∧
      t.lba < (c.hd r.minor).startSect + (c.hd r.minor).nrSects := by
  obtain ⟨n, hn, rfl⟩ := List.mem_map.mp ht
  have hn := List.mem_range.mp hn
  have hin := h.granted (hg (Nat.zero_lt_of_lt hn))
  constructor
  · exact Nat.le_trans (Nat.le_add_right _ _) (Nat.le_add_right _ _)
  · dsimp only
    omega

theorem Follows.served {r : DriverRequest} (h : Follows c s) (hfits : Fits c r)
    (hnr : 2 ≤ r.nrSectors) : Served c r s := by
  have hplain := hfits.plain hnr
  refine ⟨fun hminor => ?_, ?_, ?_, fun hfault hrun hdo j hj hr => ?_⟩
  · have htwo := c.two
    omega
  · rintro p hp rfl hok
    obtain ⟨k, hdone, -, -, hall⟩ := h.tracked.ended p hp hplain
    rw [hdone, hall hok]
  · rintro j hj rfl t ht
    rcases List.mem_append.mp hj with hj | hj
    · obtain ⟨k, hk⟩ := h.tracked.jobs j hj hplain
      have hleft := hk.left
      rw [hk.done] at ht
      exact hfits.inside hk.granted (by omega) ht
    · obtain ⟨p, hp, rfl⟩ := List.mem_map.mp hj
      obtain ⟨k, hdone, hk, hg, -⟩ := h.tracked.ended p hp hplain
      rw [hdone] at ht
      exact hfits.inside hg hk ht
  · subst hr
    obtain ⟨k, hk⟩ := h.tracked.jobs j (List.mem_of_mem_head? hj) hplain
    have hat : At c s j := by
      have hexpects := h.expects hfault hrun
      rw [Expects] at hexpects
      rcases hdo with hdo | hdo
      · rw [hdo] at hexpects
        obtain ⟨i, hi, hat⟩ := hexpects
        obtain rfl : i = j := Option.some.inj (hi.symm.trans hj)
        exact (hat hplain).2
      · rw [hdo] at hexpects
        obtain ⟨i, hi, hat⟩ := hexpects
        obtain rfl : i = j := Option.some.inj (hi.symm.trans hj)
        exact (hat hplain).2.1
    have hin := hfits.granted hat.1
    have hsector := hk.sector
    have hleft := hk.left
    rw [hat.2.2, hk.minor]
    constructor <;> omega

section Runs

variable (c) (minor nr buffer : ℕ) (write page : Bool)

/-- Where the controller is sent for a request. -/
def sentTo (c : Drives) (r : DriverRequest) : ℕ :=
  (c.info (r.minor / 5)).lba ((c.info (r.minor / 5)).chs
    ((r.sector + (c.hd r.minor).startSect) % 2 ^ 32))

/-- The command for a request is given. -/
def commanded (c : Drives) (r : DriverRequest) : Hd :=
  { idle with
    queue := [⟨r, r, []⟩]
    doHd := some (if r.write then .writeIntr else .readIntr)
    drive := r.minor / 5
    lba := sentTo c r
    sent := r.buffer }

theorem reach_commanded (hr : ¬ Refused c (.make minor write page nr buffer)) :
    (system c).Reachable (commanded c (.make minor write page nr buffer)) := by
  let r := DriverRequest.make minor write page nr buffer
  have hadd : (system c).Reachable { idle with queue := [⟨r, r, []⟩], running := true } :=
    .step (s := idle) (a := .add minor write page nr buffer 0) (.init ⟨rfl, rfl, rfl, rfl, rfl⟩)
      trivial rfl
  have hproceed : { idle with queue := [⟨r, r, []⟩], running := true }.doHdRequest c true =
      commanded c r := by
    rw [Hd.doHdRequest]
    dsimp only
    rw [if_neg hr]
    cases write with
    | false => rfl
    | true => rfl
  refine hadd.step (a := .proceed true) trivial ?_
  show some _ = some _
  exact congrArg some hproceed

/-- A block that is granted may end well, with what the controller went through. -/
theorem exists_ended (hr : ¬ Refused c (.make minor write false nr buffer)) :
    ∃ s, (system c).Reachable s ∧ ∃ p ∈ s.ended, p.2 = true ∧
      p.1.asked = .make minor write false nr buffer ∧ ∃ t ∈ p.1.done.head?,
        t.lba = sentTo c (.make minor write false nr buffer) := by
  have hreach := reach_commanded c minor nr buffer write false hr
  -- both sectors go well
  obtain ⟨s₁, hs₁, s₂, hs₂, hended⟩ : ∃ s₁,
      (commanded c (.make minor write false nr buffer)).step c (.interrupt true) = some s₁ ∧
        ∃ s₂, s₁.step c (.interrupt true) = some s₂ ∧ ∃ p ∈ s₂.ended, p.2 = true ∧
          p.1.asked = .make minor write false nr buffer ∧ ∃ t ∈ p.1.done.head?,
            t.lba = sentTo c (.make minor write false nr buffer) := by
    cases write with
    | false => exact ⟨_, rfl, _, rfl, _, List.mem_singleton_self _, rfl, rfl, _, rfl, rfl⟩
    | true => exact ⟨_, rfl, _, rfl, _, List.mem_singleton_self _, rfl, rfl, _, rfl, rfl⟩
  exact ⟨s₂, (hreach.step trivial hs₁).step trivial hs₂, hended⟩

/-- The controller has fewer than 2 ^ 29 sectors. -/
theorem sentTo_lt {r : DriverRequest} (hminor : r.minor < 5 * c.nrHd) : sentTo c r < 2 ^ 29 := by
  have hd : r.minor / 5 < c.nrHd := by omega
  obtain ⟨hhead, hhead'⟩ := c.head _ hd
  obtain ⟨hsect, hsect'⟩ := c.sect _ hd
  rw [sentTo, Geometry.lba]
  generalize (r.sector + (c.hd r.minor).startSect) % 2 ^ 32 = block
  rw [Geometry.chs]
  generalize c.info (r.minor / 5) = g at *
  dsimp only
  have hcyl : block / g.sect / g.head % 65536 ≤ 65535 :=
    Nat.le_of_lt_succ (Nat.mod_lt _ (by decide))
  have hside : block / g.sect % g.head ≤ 15 := by
    have hlt := Nat.mod_lt (block / g.sect) hhead
    omega
  have hbyte : (block % g.sect + 1) % 256 ≤ 255 := Nat.le_of_lt_succ (Nat.mod_lt _ (by decide))
  have hcylinder := Nat.mul_le_mul hcyl hhead'
  have hmul := Nat.mul_le_mul (Nat.add_le_add hcylinder hside) (Nat.le_of_lt hsect')
  omega

/-- A request that the driver serves in every run fits. -/
theorem fits_of_served (h : ∀ s, (system c).Reachable s →
    Served c (.make minor write page nr buffer) s) :
    Fits c (.make minor write page nr buffer) := by
  let r := DriverRequest.make minor write page nr buffer
  refine or_iff_not_imp_left.mpr fun hminor => or_iff_not_imp_left.mpr fun hout => ?_
  have hminor : r.minor < 5 * c.nrHd := not_le.mp hminor
  have hout : ¬ ((c.hd r.minor).nrSects < r.sector + 2 ∧ r.sector + 2 < 2 ^ 32) := hout
  obtain ⟨heven, hlt⟩ : r.sector % 2 = 0 ∧ r.sector < 2 ^ 32 := DriverRequest.sector_make
  have hr : ¬ Refused c r := by
    rw [Refused, not_or]
    constructor <;> omega
  by_cases hwrap : r.sector + 2 < 2 ^ 32
  · have hreach := reach_commanded c minor nr buffer write page hr
    have hdo : (commanded c r).doHd = some .readIntr ∨ (commanded c r).doHd = some .writeIntr := by
      cases write with
      | false => exact .inl rfl
      | true => exact .inr rfl
    have hcommand := (h _ hreach).command rfl rfl hdo ⟨r, r, []⟩ rfl rfl
    have hprogress : Progress c ⟨r, r, []⟩ 0 := progress_request fun _ => hwrap
    have hsent : sentTo c r = (c.hd r.minor).startSect + r.sector := hprogress.lba_eq hr
    have hlast : sentTo c r + r.nrSectors ≤
        (c.hd r.minor).startSect + (c.hd r.minor).nrSects := hcommand.2
    show r.sector + r.nrSectors ≤ (c.hd r.minor).nrSects
    omega
  · -- only the last block wraps, and the controller has no such sector
    have hpage : page = false := by
      by_contra hpage
      have hpage : page = true := by simpa using hpage
      have hsector : r.sector = nr * 2 ^ 3 % 2 ^ 32 := by
        show (DriverRequest.make minor write page nr buffer).sector = _
        rw [DriverRequest.make, hpage, if_pos rfl, Nat.shiftLeft_eq]
      omega
    subst hpage
    obtain ⟨s, hs, p, hp, hok, hasked, t, ht, hlba⟩ := exists_ended c minor nr buffer write hr
    have hdone := (h s hs).complete p hp hasked hok
    rw [hdone] at ht
    have hfirst : t = ⟨r.minor / 5, (c.hd r.minor).startSect + r.sector + 0, _, _⟩ :=
      (Option.some.inj ht).symm
    have hsmall : sentTo c r < 2 ^ 29 := sentTo_lt c hminor
    rw [hfirst] at hlba
    have hlba : (c.hd r.minor).startSect + r.sector + 0 = sentTo c r := hlba
    omega

end Runs

end Hd

/-! ### The RAM disk -/

/-- `rd_start` and `rd_length`. -/
structure RamDisk where
  start : ℕ
  length : ℕ
  fits : start + length < 2 ^ 32

/-- Bytes that were copied between the disk and a buffer. -/
structure Copy where
  addr : ℕ
  len : ℕ
  buffer : ℕ
  write : Bool
  deriving DecidableEq

namespace RamDisk

variable (d : RamDisk) (r : DriverRequest)

/-- `addr` of `do_rd_request`: pointers are of 32 bits. -/
def addr : ℕ := (d.start + r.sector * 512 % 2 ^ 32) % 2 ^ 32

/-- `do_rd_request` with the requests that are queued: what was copied for each, or nothing when it
was refused. -/
def doRdRequest : List DriverRequest → List (DriverRequest × Option Copy)
  | [] => []
  | r :: queue =>
    let len := r.nrSectors * 512
    if r.minor ≠ 1 ∨ d.start + d.length < (d.addr r + len) % 2 ^ 32 then
      (r, none) :: doRdRequest queue
    else (r, some ⟨d.addr r, len, r.buffer, r.write⟩) :: doRdRequest queue

/-- For a request all of its sectors are copied, and they are on the disk, or nothing is. -/
def Served : Prop :=
  ∀ queue, ∀ p ∈ d.doRdRequest queue, p.1 = r → ∀ copy ∈ p.2,
    copy = ⟨d.start + r.sector * 512, r.nrSectors * 512, r.buffer, r.write⟩ ∧
      copy.addr + copy.len ≤ d.start + d.length

/-- The request is for the disk and on it, or is found to be beyond its end. -/
def Fits : Prop :=
  r.minor ≠ 1 ∨ d.start + d.length < (d.addr r + r.nrSectors * 512) % 2 ^ 32 ∨
    r.sector * 512 + r.nrSectors * 512 ≤ d.length

variable {d r}

/-- What is done for a request does not depend on the others. -/
theorem mem_doRdRequest {queue : List DriverRequest} {p : DriverRequest × Option Copy}
    (hp : p ∈ d.doRdRequest queue) : p ∈ d.doRdRequest [p.1] := by
  induction queue with
  | nil => cases hp
  | cons r queue ih =>
    rw [doRdRequest] at hp
    split at hp
    case isTrue hr =>
      rcases List.mem_cons.mp hp with rfl | hp
      · rw [doRdRequest, if_pos hr]
        exact List.mem_cons_self
      · exact ih hp
    case isFalse hr =>
      rcases List.mem_cons.mp hp with rfl | hp
      · rw [doRdRequest, if_neg hr]
        exact List.mem_cons_self
      · exact ih hp

/-- The address of a request that is on the disk. -/
theorem addr_eq (h : r.sector * 512 + r.nrSectors * 512 ≤ d.length) :
    d.addr r = d.start + r.sector * 512 := by
  have hfits := d.fits
  rw [addr]
  omega

theorem served_iff : Served d r ↔ Fits d r := by
  constructor
  · intro h
    refine or_iff_not_imp_left.mpr fun hminor => or_iff_not_imp_left.mpr fun hlt => ?_
    have hmem : (r, some ⟨d.addr r, r.nrSectors * 512, r.buffer, r.write⟩) ∈
        d.doRdRequest [r] := by
      rw [doRdRequest, if_neg (not_or.mpr ⟨hminor, hlt⟩)]
      exact List.mem_cons_self
    obtain ⟨hcopy, hend⟩ := h [r] _ hmem rfl _ rfl
    have haddr : d.addr r = d.start + r.sector * 512 := congrArg Copy.addr hcopy
    have hend : d.addr r + r.nrSectors * 512 ≤ d.start + d.length := hend
    omega
  · rintro h queue ⟨r', copy'⟩ hp hr' copy hcopy
    obtain rfl : r' = r := hr'
    have hp := mem_doRdRequest hp
    dsimp only at hp hcopy
    rw [doRdRequest] at hp
    split at hp
    case isTrue =>
      rw [doRdRequest, List.mem_singleton, Prod.mk.injEq] at hp
      rw [hp.2] at hcopy
      cases hcopy
    case isFalse hr =>
      rw [doRdRequest, List.mem_singleton, Prod.mk.injEq] at hp
      rw [hp.2] at hcopy
      obtain rfl := Option.some.inj hcopy
      obtain ⟨hminor, hlt⟩ := not_or.mp hr
      have hin := (h.resolve_left hminor).resolve_left hlt
      have haddr := addr_eq hin
      constructor
      · rw [haddr]
      · dsimp only
        rw [haddr]
        omega

end RamDisk

/-- For a block or a page with any sector and minor device: each driver serves it, in every run,
whatever fails and whatever else is asked for, if and only if it fits. -/
theorem complete_transfers (c : Drives) (m : FloppyMemory) (d : RamDisk) (minor : ℕ)
    (write page : Bool) (nr buffer : ℕ) :
    ((∀ s, (Hd.system c).Reachable s → Hd.Served c (.make minor write page nr buffer) s) ↔
      Hd.Fits c (.make minor write page nr buffer)) ∧
    ((∀ s, (Fd.system m).Reach Fd.Orderly s →
        Fd.Served m (.make minor write page nr buffer) s) ↔
      Fd.Fits m (.make minor write page nr buffer)) ∧
    (RamDisk.Served d (.make minor write page nr buffer) ↔
      RamDisk.Fits d (.make minor write page nr buffer)) := by
  refine ⟨⟨Hd.fits_of_served c minor nr buffer write page, fun hfits s hs => ?_⟩,
    ⟨Fd.fits_of_served m minor nr buffer write page, fun hfits s hs => (Fd.driven hs).served hfits⟩,
    RamDisk.served_iff⟩
  refine (Hd.followed hs).served hfits ?_
  cases page <;> simp [DriverRequest.make]

/-- One drive, with a partition of six sectors at its end. -/
def shortPartition : Drives where
  nrHd := 1
  info _ := ⟨4, 17, 100⟩
  hd m := if m = 1 then ⟨6794, 6⟩ else ⟨0, 0⟩
  two := Hd.oneDrive.two
  head := Hd.oneDrive.head
  sect := Hd.oneDrive.sect
  cyl := Hd.oneDrive.cyl
  inside := by decide

def noMemory : FloppyMemory := ⟨fun _ => ⟨0, 0, 0, 0⟩, 0x5000⟩

/-- A page at the start of a partition of six sectors, a page of a 1.44MB diskette, a block of a
floppy type that is not in the table, and a block whose address wraps to below the RAM disk. -/
theorem pages_cut_short :
    (¬ ∀ s, (Hd.system shortPartition).Reachable s →
      Hd.Served shortPartition (.make 1 false true 0 4096) s) ∧
    (¬ ∀ s, (Fd.system noMemory).Reach Fd.Orderly s →
      Fd.Served noMemory (.make 28 false true 0 4096) s) ∧
    (¬ ∀ s, (Fd.system noMemory).Reach Fd.Orderly s →
      Fd.Served noMemory (.make 32 false false 0 4096) s) ∧
    ¬ RamDisk.Served ⟨0x400000, 0x80000, by decide⟩ (.make 1 false false 4190208 4096) := by
  refine ⟨fun h => ?_, fun h => ?_, fun h => ?_, fun h => ?_⟩
  · have hfits := Hd.fits_of_served shortPartition 1 0 4096 false true h
    rw [Hd.Fits] at hfits
    revert hfits
    decide
  · have hfits := Fd.fits_of_served noMemory 28 0 4096 false true h
    rw [Fd.Fits] at hfits
    revert hfits
    decide
  · have hfits := Fd.fits_of_served noMemory 32 0 4096 false false h
    exact absurd hfits.1 (by decide)
  · have hfits := RamDisk.served_iff.mp h
    rw [RamDisk.Fits] at hfits
    revert hfits
    decide

end Blk
