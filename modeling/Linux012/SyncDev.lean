/-
`sync_dev` ends, and leaves no dirty buffer of its device (CleanBuffers.lean).

* `Cache.Gets`, `Cache.Keeps` — what a call of `getblk`, and one that gives its buffers
  back, does to the buffers that others hold;
* `Cache.syncDev_clean` — no dirty buffer is left;
* `Cache.syncInodes_room` — each inode takes up one clean buffer at most;
* `Cache.getblk_ends` — the loop of `getblk` calls `sync_dev` twice at most.
-/
import Linux012.CleanBuffers

namespace Fs.Cleaning

open Function (update)

theorem ok_of_map {ε α β : Type} {x : Except ε α} {f : α → β} {r : β}
    (h : x.map f = .ok r) : ∃ a, x = .ok a ∧ f a = r := by
  cases x with
  | error e => cases h
  | ok a => exact ⟨a, rfl, Except.ok.inj h⟩

namespace Cache

variable {m : Machine} {s s' s'' : Cache} {b b' : ℕ}

/-! ### `getblk` -/

variable {dev fuel : ℕ} {block : ℤ} {sync : Cache → ℕ → Except Stop Cache}

/-- The buffer is for that block. -/
def At (s : Cache) (b dev : ℕ) (block : ℤ) : Prop :=
  (s.head b).dev = dev ∧ (s.head b).blocknr = block

theorem findBuffer_some (h : s.findBuffer m dev block = some b) :
    b < m.nrBuffers ∧ s.At b dev block ∧ dev ≠ 0 := by
  rw [findBuffer] at h
  split at h
  · cases h
  case isFalse hdev =>
    have hp := List.find?_some h
    rw [Bool.and_eq_true, beq_iff_eq, beq_iff_eq] at hp
    exact ⟨List.mem_range.mp (List.mem_of_find?_eq_some h), hp, hdev⟩

theorem findBuffer_none (hdev : dev ≠ 0) (h : s.findBuffer m dev block = none)
    (hb : b < m.nrBuffers) : ¬ s.At b dev block := by
  intro ⟨hd, hn⟩
  rw [findBuffer, if_neg hdev, List.find?_eq_none] at h
  refine h b (List.mem_range.mpr hb) ?_
  rw [hd, hn, beq_self_eq_true, beq_self_eq_true]
  rfl

/-- A candidate of the search: the best one so far, or an unused buffer that is left. -/
def Candidate (s : Cache) (bh : Option ℕ) (l : List ℕ) (x : ℕ) : Prop :=
  bh = some x ∨ x ∈ l ∧ (s.head x).count = 0

/-- The search finds a candidate of least badness. -/
theorem search_spec (s : Cache) (bh : Option ℕ) (l : List ℕ) :
    match s.search bh l with
    | none => ∀ x, ¬ s.Candidate bh l x
    | some b => s.Candidate bh l b ∧ ∀ x, s.Candidate bh l x → s.badness b ≤ s.badness x := by
  induction l generalizing bh with
  | nil =>
    rw [search]
    cases bh with
    | none => exact fun x h => h.elim nofun fun h => nomatch h.1
    | some b =>
      refine ⟨.inl rfl, fun x h => ?_⟩
      rcases h with h | h
      · rw [Option.some.inj h]
      · cases h.1
  | cons tmp l ih =>
    rw [search]
    by_cases hc : (s.head tmp).count ≠ 0
    · -- a buffer in use is no candidate
      have hcand : ∀ x, s.Candidate bh (tmp :: l) x ↔ s.Candidate bh l x := by
        intro x
        refine or_congr_right (and_congr_left fun hx => ?_)
        rw [List.mem_cons]
        exact or_iff_right fun h => hc (h ▸ hx)
      rw [if_pos hc]
      simp only [hcand]
      exact ih bh
    rw [if_neg hc]
    have htmp : s.Candidate bh (tmp :: l) tmp := .inr ⟨List.mem_cons_self, not_not.mp hc⟩
    have hcons : ∀ x bh', s.Candidate bh (tmp :: l) x →
        bh = some x ∨ x = tmp ∨ s.Candidate bh' l x := by
      intro x bh' h
      rcases h with h | ⟨h, h0⟩
      · exact .inl h
      · rcases List.mem_cons.mp h with h | h
        · exact .inr (.inl h)
        · exact .inr (.inr (.inr ⟨h, h0⟩))
    by_cases hbest : bh.all fun bh => decide (s.badness tmp < s.badness bh)
    · rw [if_pos hbest]
      have hlt : ∀ x, bh = some x → s.badness tmp ≤ s.badness x := by
        rintro x rfl
        exact Nat.le_of_lt (of_decide_eq_true hbest)
      by_cases hzero : s.badness tmp = 0
      · rw [if_pos hzero]
        exact ⟨htmp, fun x _ => hzero ▸ Nat.zero_le _⟩
      · rw [if_neg hzero]
        have h := ih (some tmp)
        cases hr : s.search (some tmp) l with
        | none =>
          rw [hr] at h
          exact absurd (.inl rfl) (h tmp)
        | some b =>
          rw [hr] at h
          have hle : s.badness b ≤ s.badness tmp := h.2 tmp (.inl rfl)
          refine ⟨?_, fun x hx => ?_⟩
          · rcases h.1 with hb | hb
            · rw [← Option.some.inj hb]
              exact htmp
            · exact .inr ⟨List.mem_cons_of_mem _ hb.1, hb.2⟩
          · rcases hcons x (some tmp) hx with hx | rfl | hx
            · exact hle.trans (hlt x hx)
            · exact hle
            · exact h.2 x hx
    · rw [if_neg hbest]
      obtain ⟨best, rfl, hle⟩ : ∃ best, bh = some best ∧ s.badness best ≤ s.badness tmp := by
        cases bh with
        | none => exact absurd rfl hbest
        | some best => exact ⟨best, rfl, by simpa using hbest⟩
      have h := ih (some best)
      cases hr : s.search (some best) l with
      | none =>
        rw [hr] at h
        exact absurd (.inl rfl) (h best)
      | some b =>
        rw [hr] at h
        refine ⟨h.1.imp_right fun hb => ⟨List.mem_cons_of_mem _ hb.1, hb.2⟩, fun x hx => ?_⟩
        rcases hcons x (some best) hx with hx | rfl | hx
        · exact h.2 x (.inl hx)
        · exact (h.2 best (.inl rfl)).trans hle
        · exact h.2 x hx

/-- The chosen buffer is unused, and dirty only if all unused buffers are. -/
theorem search_some (h : s.search none s.free = some b) : b ∈ s.free ∧ (s.head b).count = 0 ∧
    ((s.head b).dirt = true → ∀ x ∈ s.free, (s.head x).count = 0 → (s.head x).dirt = true) := by
  have hspec := search_spec s none s.free
  rw [h] at hspec
  obtain ⟨hb, hle⟩ := hspec
  have hmem := hb.resolve_left nofun
  refine ⟨hmem.1, hmem.2, fun hd x hx h0 => ?_⟩
  have hbad := hle x (.inr ⟨hx, h0⟩)
  rw [badness, badness, hd] at hbad
  by_contra hc
  have hlock : (s.head x).lock.toNat ≤ 1 := Bool.toNat_le _
  rw [Bool.eq_false_iff.mpr hc, Bool.toNat_true, Bool.toNat_false] at hbad
  omega

theorem search_none (h : s.search none s.free = none) (hb : b ∈ s.free) :
    (s.head b).count ≠ 0 := by
  have hspec := search_spec s none s.free
  rw [h] at hspec
  exact fun h0 => hspec b (.inr ⟨hb, h0⟩)

/-! ### What the calls do to the buffers in use -/

/-- A call that gives back what it gets. -/
structure Keeps (m : Machine) (s s' : Cache) : Prop where
  inv : Inv m s'
  super : s'.super = s.super
  count : ∀ b, (s'.head b).count = (s.head b).count
  dev : ∀ b, (s.head b).count ≠ 0 → (s'.head b).dev = (s.head b).dev

theorem Keeps.refl (hi : Inv m s) : Keeps m s s := ⟨hi, rfl, fun _ => rfl, fun _ _ => rfl⟩

theorem Keeps.trans (h : Keeps m s s') (h' : Keeps m s' s'') : Keeps m s s'' where
  inv := h'.inv
  super := h'.super.trans h.super
  count b := (h'.count b).trans (h.count b)
  dev b hb := (h'.dev b (by rwa [h.count b])).trans (h.dev b hb)

theorem Mild.keeps (h : Mild m s s') (hi : Inv m s) : Keeps m s s' :=
  ⟨h.inv hi, h.super, h.count, fun b _ => h.dev b⟩

/-- A call that gets buffer `b`. -/
structure Gets (m : Machine) (s s' : Cache) (b dev : ℕ) (block : ℤ) : Prop where
  inv : Inv m s'
  super : s'.super = s.super
  got : s'.At b dev block
  count_self : (s'.head b).count = (s.head b).count + 1
  count_ne : ∀ x, x ≠ b → (s'.head x).count = (s.head x).count
  dev : ∀ x, (s.head x).count ≠ 0 → (s'.head x).dev = (s.head x).dev

theorem Keeps.gets (h : Keeps m s s') (h' : Gets m s' s'' b dev block) :
    Gets m s s'' b dev block where
  inv := h'.inv
  super := h'.super.trans h.super
  got := h'.got
  count_self := by rw [h'.count_self, h.count]
  count_ne x hx := by rw [h'.count_ne x hx, h.count]
  dev x hx := (h'.dev x (by rwa [h.count x])).trans (h.dev x hx)

theorem Gets.mild (h : Gets m s s' b dev block) (h' : Mild m s' s'') :
    Gets m s s'' b dev block where
  inv := h'.inv h.inv
  super := h'.super.trans h.super
  got := by
    rw [At, h'.dev, h'.blocknr]
    exact h.got
  count_self := by rw [h'.count, h.count_self]
  count_ne x hx := by rw [h'.count, h.count_ne x hx]
  dev x hx := by rw [h'.dev, h.dev x hx]

/-- Only the count of a buffer changes. -/
theorem setCount_inv (hi : Inv m s) (b count : ℕ) : Inv m (s.setCount b count) := by
  have hhead : ∀ x, ∃ n, (s.setCount b count).head x = { s.head x with count := n } := by
    intro x
    by_cases hx : x = b
    · rw [hx]
      exact ⟨count, setHead_head_self _ _ _⟩
    · exact ⟨(s.head x).count, setHead_head_ne _ _ hx⟩
  refine ⟨fun x => ?_, hi.super, hi.free, fun x y => ?_⟩
  · obtain ⟨n, hn⟩ := hhead x
    rw [hn]
    exact hi.live x
  · obtain ⟨n, hn⟩ := hhead x
    obtain ⟨n', hn'⟩ := hhead y
    rw [hn, hn']
    exact hi.unique x y

/-- A buffer that is held is given back. -/
theorem Gets.release (h : Gets m s s' b dev block) :
    Keeps m s (s'.setCount b ((s'.head b).count - 1)) where
  inv := setCount_inv h.inv _ _
  super := h.super
  count x := by
    by_cases hx : x = b
    · rw [hx, setCount, setHead_head_self, h.count_self, Nat.add_sub_cancel]
    · rw [setCount, setHead_head_ne _ _ hx, h.count_ne x hx]
  dev x hx := by
    by_cases hxb : x = b
    · rw [hxb, setCount, setHead_head_self]
      exact h.dev b (hxb ▸ hx)
    · rw [setCount, setHead_head_ne _ _ hxb, h.dev x hx]

theorem brelse_ok (h : s.brelse m b = .ok s') :
    s' = (s.waitOnBuffer m b).setCount b (((s.waitOnBuffer m b).head b).count - 1) := by
  rw [brelse] at h
  split at h
  · cases h
  · exact (Except.ok.inj h).symm

theorem Gets.brelse (h : Gets m s s' b dev block) (hr : s'.brelse m b = .ok s'') :
    Keeps m s s'' := by
  rw [brelse_ok hr]
  exact (h.mild (waitOnBuffer_mild s' b)).release

/-- The buffer of `getblk` after the search. -/
theorem take_gets (hi : Inv m s) (hb : b ∈ s.free) (h0 : (s.head b).count = 0)
    (hl : (s.head b).lock = false) (hf : s.findBuffer m dev block = none) :
    Gets m s (s.take b dev block) b dev block := by
  have hself : (s.take b dev block).head b = { s.head b with
      dev := dev, blocknr := block, uptodate := false, dirt := false, count := 1 } :=
    Function.update_self _ _ _
  have hne : ∀ x, x ≠ b → (s.take b dev block).head x = s.head x := fun x hx =>
    Function.update_of_ne hx _ _
  refine ⟨⟨fun x hx => ?_, hi.super, fun x => ?_, fun x y hx hy => ?_⟩, rfl, ?_, ?_, ?_, ?_⟩
  · by_cases hxb : x = b
    · rw [hxb, hself, hl] at hx
      simp at hx
    · rw [hne x hxb] at hx ⊢
      exact hi.live x hx
  · rw [← hi.free x]
    show x ∈ s.free.erase b ++ [b] ↔ x ∈ s.free
    rw [List.mem_append, List.mem_singleton]
    by_cases hxb : x = b
    · rw [hxb]
      exact ⟨fun _ => hb, fun _ => .inr rfl⟩
    · rw [List.mem_erase_of_ne hxb]
      exact or_iff_left hxb
  · -- no other buffer is for this block
    by_cases hxb : x = b <;> by_cases hyb : y = b
    · exact fun _ _ _ => hxb.trans hyb.symm
    · rw [hxb, hself, hne y hyb]
      exact fun hdev hd hn => absurd ⟨hd.symm, hn.symm⟩ (findBuffer_none hdev hf hy)
    · rw [hyb, hself, hne x hxb]
      intro hdev hd hn
      exact absurd ⟨hd, hn⟩ (findBuffer_none (fun hz => hdev (hd.trans hz)) hf hx)
    · rw [hne x hxb, hne y hyb]
      exact hi.unique x y hx hy
  · rw [At, hself]
    exact ⟨rfl, rfl⟩
  · rw [hself, h0]
  · intro x hx
    rw [hne x hx]
  · intro x hx
    have hxb : x ≠ b := fun h => hx (h ▸ h0)
    rw [hne x hxb]

/-- What `sync_dev` does where it comes back. -/
def Syncs (m : Machine) (sync : Cache → ℕ → Except Stop Cache) : Prop :=
  ∀ s dev s', Inv m s → sync s dev = .ok s' → Keeps m s s'

theorem syncLocked_syncs : Syncs m syncLocked := fun _ _ _ _ h => nomatch h

theorem clean_keeps (hsync : Syncs m sync) {again : Bool} (hi : Inv m s)
    (hl : (s.head b).lock = false) (h : clean m sync b fuel s = .ok (again, s')) :
    Keeps m s s' ∧ (again = false → (s'.head b).lock = false) ∧
      (again = true → (s'.head b).count ≠ 0) := by
  induction fuel generalizing s with
  | zero => cases h
  | succ fuel ih =>
    rw [clean] at h
    split at h
    · obtain ⟨s₁, h₁, h₂⟩ := Except.ok_of_bind h
      have hk := hsync _ _ _ hi h₁
      have hkw := hk.trans ((waitOnBuffer_mild s₁ b).keeps hk.inv)
      dsimp only at h₂
      split at h₂
      case isTrue hc =>
        cases h₂
        exact ⟨hkw, nofun, fun _ => hc⟩
      case isFalse =>
        obtain ⟨hk', hl'⟩ := ih hkw.inv (waitOnBuffer_lock s₁ b) h₂
        exact ⟨hkw.trans hk', hl'⟩
    · cases h
      exact ⟨.refl hi, fun _ => hl, nofun⟩

/-- `get_hash_table`: while the buffer is held it stays for its block. -/
theorem hold_gets (hi : Inv m s) (hat : s.At b dev block) :
    Gets m s ((s.setCount b ((s.head b).count + 1)).waitOnBuffer m b) b dev block := by
  suffices hset : Gets m s (s.setCount b ((s.head b).count + 1)) b dev block from
    hset.mild (waitOnBuffer_mild _ b)
  refine ⟨setCount_inv hi _ _, rfl, ?_, ?_, ?_, ?_⟩
  · rw [At, setCount, setHead_head_self]
    exact hat
  · rw [setCount, setHead_head_self]
  · intro x hx
    rw [setCount, setHead_head_ne _ _ hx]
  · intro x _
    by_cases hx : x = b
    · rw [hx, setCount, setHead_head_self]
    · rw [setCount, setHead_head_ne _ _ hx]

theorem getblk_gets (hsync : Syncs m sync) (hi : Inv m s)
    (h : getblk m sync dev block fuel s = .ok (b, s')) : Gets m s s' b dev block := by
  induction fuel generalizing s with
  | zero => cases h
  | succ fuel ih =>
    rw [getblk] at h
    cases hf : s.findBuffer m dev block with
    | some x =>
      have hg := hold_gets hi (findBuffer_some hf).2.1
      rw [hf] at h
      dsimp only at h
      rw [if_pos (show _ = dev ∧ _ = block from hg.got)] at h
      cases h
      exact hg
    | none =>
      rw [hf] at h
      cases hs : s.search none s.free with
      | none =>
        rw [hs] at h
        cases h
      | some x =>
        rw [hs] at h
        dsimp only at h
        have hw := (waitOnBuffer_mild (m := m) s x).keeps hi
        obtain ⟨hmem, h0, -⟩ := search_some hs
        rw [if_neg (by rw [hw.count, h0]; exact not_not.mpr rfl)] at h
        obtain ⟨⟨again, s₁⟩, h₁, h₂⟩ := Except.ok_of_bind h
        obtain ⟨hk, hl, -⟩ := clean_keeps hsync hw.inv (waitOnBuffer_lock s x) h₁
        have hk' := hw.trans hk
        dsimp only at h₂
        split at h₂
        · exact hk'.gets (ih hk.inv h₂)
        case isFalse hagain =>
          rw [Bool.or_eq_true, not_or, Bool.not_eq_true, Bool.not_eq_true,
            Option.isSome_eq_false_iff, Option.isNone_iff_eq_none] at hagain
          cases h₂
          refine hk'.gets (take_gets hk.inv ?_ ?_ (hl hagain.1) hagain.2)
          · rw [hk.inv.free, ← hi.free]
            exact hmem
          · rw [hk'.count, h0]

/-- `bread` comes back with the buffer, which has been read, or without it. -/
theorem breadWait_gets {found : Bool} (hg : Gets m s s' b dev block)
    (h : s'.breadWait m b = .ok (found, s'')) :
    if found then Gets m s s'' b dev block ∧ m.served dev = true else Keeps m s s'' := by
  rw [breadWait] at h
  have hw := hg.mild (waitOnBuffer_mild s' b)
  split at h
  case isTrue hu =>
    cases h
    exact ⟨hw, hw.got.1 ▸ hw.inv.live b (.inr (.inr hu))⟩
  case isFalse =>
    obtain ⟨s₁, h₁, h₂⟩ := Except.ok_of_bind h
    cases h₂
    exact hw.brelse h₁

theorem breadFrom_gets {found : Bool} (hg : Gets m s s' b dev block)
    (h : s'.breadFrom m b = .ok (found, s'')) :
    if found then Gets m s s'' b dev block ∧ m.served dev = true else Keeps m s s'' := by
  rw [breadFrom] at h
  split at h
  case isTrue hu =>
    cases h
    exact ⟨hg, hg.got.1 ▸ hg.inv.live b (.inr (.inr hu))⟩
  case isFalse => exact breadWait_gets (hg.mild (llRwBlock_mild s' .read b)) h

theorem bread_gets (hsync : Syncs m sync) (hi : Inv m s) {r : Option ℕ}
    (h : s.bread m sync fuel dev block = .ok (r, s')) :
    match r with
    | some b => Gets m s s' b dev block ∧ m.served dev = true
    | none => Keeps m s s' := by
  rw [bread] at h
  obtain ⟨⟨b, s₁⟩, h₁, h₂⟩ := Except.ok_of_bind h
  obtain ⟨⟨found, s₂⟩, h₃, h₄⟩ := Except.ok_of_bind h₂
  have hg := breadFrom_gets (getblk_gets hsync hi h₁) h₃
  cases found with
  | true =>
    cases h₄
    exact hg
  | false =>
    cases h₄
    exact hg

theorem inodeAt_eq {i : ℕ} (h : s.inodeBlock i = some block) :
    s.inodeAt i = some ((s.inode i).dev, block) := by
  rw [inodeAt, h]
  rfl

theorem setDirt_head (s : Cache) (b x : ℕ) :
    (s.setDirt b).head x = { s.head x with dirt := (s.head x).dirt || x == b } := by
  by_cases hx : x = b
  · rw [hx, setDirt, setHead_head_self, beq_self_eq_true, Bool.or_true]
  · rw [setDirt, setHead_head_ne _ _ hx, beq_eq_false_iff_ne.mpr hx, Bool.or_false]

/-- Buffer `b`, on a device with a driver, becomes dirty. -/
theorem setDirt_inv (hi : Inv m s) (h : m.served (s.head b).dev = true) :
    Inv m (s.setDirt b) := by
  refine ⟨fun x hx => ?_, hi.super, hi.free, fun x y => ?_⟩
  · rw [setDirt_head] at hx ⊢
    by_cases hxb : x = b
    · rw [hxb]
      exact h
    · rw [beq_eq_false_iff_ne.mpr hxb, Bool.or_false] at hx
      exact hi.live x hx
  · rw [setDirt_head, setDirt_head]
    exact hi.unique x y

theorem Gets.setDirt (h : Gets m s s' b dev block) (hs : m.served dev = true) :
    Gets m s (s'.setDirt b) b dev block where
  inv := setDirt_inv h.inv (h.got.1 ▸ hs)
  super := h.super
  got := by
    rw [At, setDirt_head]
    exact h.got
  count_self := by
    rw [setDirt_head]
    exact h.count_self
  count_ne x hx := by
    rw [setDirt_head]
    exact h.count_ne x hx
  dev x hx := by
    rw [setDirt_head]
    exact h.dev x hx

theorem Gets.storeInode (h : Gets m s s' b dev block) (hs : m.served dev = true) (i : ℕ) :
    Gets m s (s'.storeInode i b) b dev block :=
  have hd := h.setDirt hs
  ⟨⟨hd.inv.live, hd.inv.super, hd.inv.free, hd.inv.unique⟩, hd.super, hd.got, hd.count_self,
    hd.count_ne, hd.dev⟩

theorem writeInode_keeps (hi : Inv m s) {i : ℕ} (h : s.writeInode m fuel i = .ok s') :
    Keeps m s s' := by
  rw [writeInode] at h
  split at h
  · cases h
    exact .refl hi
  cases hb : s.inodeBlock i with
  | none =>
    rw [hb] at h
    cases h
  | some block =>
    rw [hb] at h
    obtain ⟨⟨r, s₁⟩, h₁, h₂⟩ := Except.ok_of_bind h
    have hg := bread_gets syncLocked_syncs hi h₁
    cases r with
    | none => cases h₂
    | some b => exact (hg.1.storeInode hg.2 i).brelse h₂

theorem readInode_keeps (hi : Inv m s) {i : ℕ} {node : Option ℕ}
    (h : s.readInode m fuel i node = .ok s') : Keeps m s s' := by
  rw [readInode] at h
  cases hb : s.inodeBlock i with
  | none =>
    rw [hb] at h
    cases h
  | some block =>
    rw [hb] at h
    obtain ⟨⟨r, s₁⟩, h₁, h₂⟩ := Except.ok_of_bind h
    have hg := bread_gets syncLocked_syncs hi h₁
    cases r with
    | none => cases h₂
    | some b =>
      obtain ⟨s₂, h₃, h₄⟩ := Except.ok_of_bind h₂
      have hk := hg.1.brelse h₃
      cases node with
      | none =>
        cases h₄
        exact hk
      | some zone =>
        obtain ⟨size, -, h₅⟩ := Except.ok_of_bind h₄
        cases h₅
        exact hk

theorem syncInodes_keeps (hi : Inv m s) {l : List ℕ} (h : s.syncInodes m fuel l = .ok s') :
    Keeps m s s' := by
  induction l generalizing s with
  | nil =>
    cases h
    exact .refl hi
  | cons i l ih =>
    rw [syncInodes] at h
    split at h
    · obtain ⟨s₁, h₁, h₂⟩ := Except.ok_of_bind h
      have hk := writeInode_keeps hi h₁
      exact hk.trans (ih hk.inv h₂)
    · exact ih hi h

theorem syncDev_keeps (m : Machine) (fuel : ℕ) : Syncs m (syncDev m fuel) := by
  intro s dev s' hi h
  rw [syncDev] at h
  obtain ⟨s₁, h₁, h₂⟩ := Except.ok_of_bind h
  cases h₂
  have hw := (writeOut_mild (m := m) (p := (· == dev)) (List.range m.nrBuffers) s).keeps hi
  have hk := hw.trans (syncInodes_keeps hw.inv h₁)
  exact hk.trans ((writeOut_mild _ _).keeps hk.inv)

/-- `sync_dev` leaves no dirty buffer of its device. -/
theorem syncDev_clean (hi : Inv m s) (h : s.syncDev m fuel dev = .ok s')
    (hb : b < m.nrBuffers) (hdev : (s'.head b).dev = dev) : (s'.head b).dirt = false := by
  rw [syncDev] at h
  obtain ⟨s₁, h₁, h₂⟩ := Except.ok_of_bind h
  cases h₂
  have hw := (writeOut_mild (m := m) (p := (· == dev)) (List.range m.nrBuffers) s).keeps hi
  exact writeOut_clean (syncInodes_keeps hw.inv h₁).inv (List.mem_range.mpr hb)
    (beq_iff_eq.mpr hdev)

theorem sysSync_keeps (hi : Inv m s) (h : s.sysSync m fuel = .ok s') : Keeps m s s' := by
  rw [sysSync] at h
  obtain ⟨s₁, h₁, h₂⟩ := Except.ok_of_bind h
  cases h₂
  have hk := syncInodes_keeps hi h₁
  exact hk.trans ((writeOut_mild _ _).keeps hk.inv)

/-! ### Clean buffers for the inodes -/

/-- A call that gets buffer `b` and leaves the other buffers alone; the buffer was for that
block, or there was none and this one was unused and clean. -/
structure Plain (m : Machine) (s s' : Cache) (b dev : ℕ) (block : ℤ) : Prop where
  bound : b < m.nrBuffers
  inode : s'.inode = s.inode
  from_ : s.At b dev block ∨ (∀ x < m.nrBuffers, ¬ s.At x dev block) ∧ (s.head b).count = 0 ∧
    (s.head b).dirt = false
  dev : ∀ x, x ≠ b → (s'.head x).dev = (s.head x).dev
  blocknr : ∀ x, x ≠ b → (s'.head x).blocknr = (s.head x).blocknr
  dirt : ∀ x, x ≠ b → (s'.head x).dirt = (s.head x).dirt

theorem Plain.mild (h : Plain m s s' b dev block) (h' : Mild m s' s'')
    (hdirt : ∀ x, x ≠ b → (s''.head x).dirt = (s'.head x).dirt) : Plain m s s'' b dev block where
  bound := h.bound
  inode := h'.inode.trans h.inode
  from_ := h.from_
  dev x hx := (h'.dev x).trans (h.dev x hx)
  blocknr x hx := (h'.blocknr x).trans (h.blocknr x hx)
  dirt x hx := (hdirt x hx).trans (h.dirt x hx)

/-- The flags of `b` are its own affair. -/
theorem Plain.setHead (h : Plain m s s' b dev block) (head : Head) :
    Plain m s (s'.setHead b head) b dev block where
  bound := h.bound
  inode := h.inode
  from_ := h.from_
  dev x hx := by rw [setHead_head_ne _ _ hx, h.dev x hx]
  blocknr x hx := by rw [setHead_head_ne _ _ hx, h.blocknr x hx]
  dirt x hx := by rw [setHead_head_ne _ _ hx, h.dirt x hx]

/-- The block is in the cache. -/
theorem getblk_found (sync : Cache → ℕ → Except Stop Cache) (fuel : ℕ) (hi : Inv m s) (h : s.findBuffer m dev block = some b) :
    ∃ s', getblk m sync dev block (fuel + 1) s = .ok (b, s') ∧ Plain m s s' b dev block := by
  obtain ⟨hb, hat, -⟩ := findBuffer_some h
  refine ⟨(s.setCount b ((s.head b).count + 1)).waitOnBuffer m b, ?_, ?_⟩
  · rw [getblk, h]
    dsimp only
    rw [if_pos (show _ = dev ∧ _ = block from (hold_gets hi hat).got)]
  · have hset : Plain m s (s.setCount b ((s.head b).count + 1)) b dev block :=
      Plain.setHead ⟨hb, rfl, .inl hat, fun _ _ => rfl, fun _ _ => rfl, fun _ _ => rfl⟩ _
    exact hset.mild (waitOnBuffer_mild _ b) fun x _ => waitOnBuffer_dirt _ b x

theorem findBuffer_congr (hdev : ∀ b, (s'.head b).dev = (s.head b).dev)
    (hnr : ∀ b, (s'.head b).blocknr = (s.head b).blocknr) :
    s'.findBuffer m dev block = s.findBuffer m dev block := by
  rw [findBuffer, findBuffer]
  simp only [hdev, hnr]

/-- A clean buffer is used for the block. -/
theorem getblk_clean (hf : s.findBuffer m dev block = none)
    (h : s.search none s.free = some b) (hd : (s.head b).dirt = false) :
    getblk m sync dev block (fuel + 2) s = .ok (b, (s.waitOnBuffer m b).take b dev block) := by
  have hw := waitOnBuffer_mild (m := m) s b
  have hf' : (s.waitOnBuffer m b).findBuffer m dev block = none := by
    rw [findBuffer_congr hw.dev hw.blocknr, hf]
  have hclean : clean m sync b (fuel + 1) (s.waitOnBuffer m b) =
      .ok (false, s.waitOnBuffer m b) := by
    rw [clean, if_neg]
    rw [waitOnBuffer_dirt, hd]
    exact Bool.false_ne_true
  rw [getblk, hf, h]
  dsimp only
  rw [if_neg (by rw [hw.count, (search_some h).2.1]; exact not_not.mpr rfl), hclean]
  show (if (false || ((s.waitOnBuffer m b).findBuffer m dev block).isSome) = true then _
    else _) = _
  rw [hf']
  rfl

theorem take_plain (hi : Inv m s) (hdev : dev ≠ 0) (hf : s.findBuffer m dev block = none)
    (h : s.search none s.free = some b) (hd : (s.head b).dirt = false) :
    Plain m s ((s.waitOnBuffer m b).take b dev block) b dev block := by
  have hw := waitOnBuffer_mild (m := m) s b
  obtain ⟨hmem, h0, -⟩ := search_some h
  have hne : ∀ x, x ≠ b → ((s.waitOnBuffer m b).take b dev block).head x =
      (s.waitOnBuffer m b).head x := fun x hx => Function.update_of_ne hx _ _
  refine ⟨(hi.free b).mp hmem, hw.inode, .inr ⟨fun x hx => findBuffer_none hdev hf hx, h0, hd⟩,
    fun x hx => ?_, fun x hx => ?_, fun x hx => ?_⟩
  · rw [hne x hx, hw.dev]
  · rw [hne x hx, hw.blocknr]
  · rw [hne x hx, waitOnBuffer_dirt]

/-- What `write_inode` does where it comes back. -/
structure Wrote (m : Machine) (s s' : Cache) (i b dev : ℕ) (block : ℤ) : Prop where
  keeps : Keeps m s s'
  bound : b < m.nrBuffers
  inode : s'.inode = update s.inode i { s.inode i with dirt := false }
  from_ : s.At b dev block ∨ (∀ x < m.nrBuffers, ¬ s.At x dev block) ∧ (s.head b).count = 0 ∧
    (s.head b).dirt = false
  at_ : s'.At b dev block
  dirty : (s'.head b).dirt = true
  dev : ∀ x, x ≠ b → (s'.head x).dev = (s.head x).dev
  blocknr : ∀ x, x ≠ b → (s'.head x).blocknr = (s.head x).blocknr
  dirt : ∀ x, x ≠ b → (s'.head x).dirt = (s.head x).dirt

theorem brelse_eq (h : (s.head b).count ≠ 0) : s.brelse m b =
    .ok ((s.waitOnBuffer m b).setCount b (((s.waitOnBuffer m b).head b).count - 1)) := by
  rw [brelse]
  refine if_neg ?_
  rw [(waitOnBuffer_mild s b).count]
  exact h

/-- With its buffer, `bread` comes back. -/
theorem breadFrom_plain (hg : Gets m s s' b dev block) (hp : Plain m s s' b dev block) :
    (∃ s'', s'.breadFrom m b = .ok (true, s'') ∧ Plain m s s'' b dev block) ∨
      ∃ s'', s'.breadFrom m b = .ok (false, s'') := by
  by_cases hu : (s'.head b).uptodate = true
  · exact .inl ⟨s', if_pos hu, hp⟩
  have hr := llRwBlock_mild (m := m) s' .read b
  have hw := waitOnBuffer_mild (m := m) (s'.llRwBlock m .read b) b
  rw [breadFrom, if_neg hu, breadWait]
  by_cases hu' : (((s'.llRwBlock m .read b).waitOnBuffer m b).head b).uptodate = true
  · refine .inl ⟨(s'.llRwBlock m .read b).waitOnBuffer m b, if_pos hu', ?_⟩
    exact (hp.mild hr fun x hx => llRwBlock_dirt_ne _ _ hx).mild hw fun x _ =>
      waitOnBuffer_dirt _ b x
  · have hcount : (((s'.llRwBlock m .read b).waitOnBuffer m b).head b).count ≠ 0 := by
      rw [hw.count, hr.count, hg.count_self]
      exact Nat.succ_ne_zero _
    right
    rw [if_neg hu', brelse_eq hcount]
    exact ⟨_, rfl⟩

/-- The buffer of the inode is given back, dirty. -/
theorem Plain.wrote {i : ℕ} (hp : Plain m s s' b dev block) (hg : Gets m s s' b dev block)
    (hs : m.served dev = true) (h : (s'.storeInode i b).brelse m b = .ok s'') :
    Wrote m s s'' i b dev block := by
  have hst := hg.storeInode hs i
  have hw := waitOnBuffer_mild (m := m) (s'.storeInode i b) b
  have hhead : ∀ x, (s'.storeInode i b).head x =
      { s'.head x with dirt := (s'.head x).dirt || x == b } := fun x => setDirt_head s' b x
  have heq := brelse_ok h
  have hkeep : ∀ x, x ≠ b → s''.head x = ((s'.storeInode i b).waitOnBuffer m b).head x := by
    intro x hx
    rw [heq, setCount, setHead_head_ne _ _ hx]
  have hat : s''.At b dev block ∧ (s''.head b).dirt = true := by
    rw [heq, At, setCount, setHead_head_self]
    refine ⟨(hst.mild hw).got, ?_⟩
    show (((s'.storeInode i b).waitOnBuffer m b).head b).dirt = true
    rw [waitOnBuffer_dirt, hhead, beq_self_eq_true, Bool.or_true]
  refine ⟨hst.brelse h, hp.bound, ?_, hp.from_, hat.1, hat.2, fun x hx => ?_, fun x hx => ?_,
    fun x hx => ?_⟩
  · rw [heq]
    show ((s'.storeInode i b).waitOnBuffer m b).inode = _
    rw [hw.inode]
    show update s'.inode i { s'.inode i with dirt := false } = _
    rw [hp.inode]
  · rw [hkeep x hx, hw.dev, hhead, hp.dev x hx]
  · rw [hkeep x hx, hw.blocknr, hhead, hp.blocknr x hx]
  · rw [hkeep x hx, waitOnBuffer_dirt, hhead, beq_eq_false_iff_ne.mpr hx, Bool.or_false,
      hp.dirt x hx]

/-- With its buffer, `write_inode` comes back, or the inode cannot be read. -/
theorem writeInode_wrote (hi : Inv m s) {i : ℕ} (hd : (s.inode i).dirt = true)
    (hdev : (s.inode i).dev ≠ 0) (hb : s.inodeBlock i = some block) {s₁ : Cache}
    (h : getblk m syncLocked (s.inode i).dev block fuel s = .ok (b, s₁))
    (hp : Plain m s s₁ b (s.inode i).dev block) :
    s.writeInode m fuel i = .error .panic ∨
      ∃ s', s.writeInode m fuel i = .ok s' ∧ Wrote m s s' i b (s.inode i).dev block := by
  have heq : s.writeInode m fuel i = s₁.breadFrom m b >>= fun r =>
      if r.1 then (r.2.storeInode i b).brelse m b else .error .panic := by
    rw [writeInode, hd, beq_eq_false_iff_ne.mpr hdev, hb]
    dsimp only
    rw [bread, h]
    cases hr : s₁.breadFrom m b with
    | error e =>
      show (s₁.breadFrom m b >>= _) >>= _ = _
      rw [hr]
      rfl
    | ok r =>
      obtain ⟨found, s₂⟩ := r
      show (s₁.breadFrom m b >>= _) >>= _ = _
      rw [hr]
      cases found <;> rfl
  have hg := getblk_gets syncLocked_syncs hi h
  rcases breadFrom_plain hg hp with ⟨s₂, hr, hp₂⟩ | ⟨s₂, hr⟩
  · right
    have hg₂ := breadFrom_gets hg hr
    have hst := hg₂.1.storeInode hg₂.2 i
    have hrel := brelse_eq (m := m) (s := s₂.storeInode i b) (b := b) (by
      rw [hst.count_self]
      exact Nat.succ_ne_zero _)
    rw [hr] at heq
    exact ⟨_, heq.trans hrel, hp₂.wrote hg₂.1 hg₂.2 hrel⟩
  · left
    rw [heq, hr]
    rfl

theorem mem_needed {k : ℕ × ℤ} :
    k ∈ s.needed m ↔ (∃ i < nrInode, s.toWrite i = some k) ∧ ¬ s.Busy m k := by
  rw [needed, Finset.mem_filter, Finset.mem_biUnion]
  refine and_congr_left fun _ => exists_congr fun i => ?_
  rw [Finset.mem_range, Option.mem_toFinset, Option.mem_def]

theorem mem_spare : b ∈ s.spare m ↔
    b < m.nrBuffers ∧ (s.head b).count = 0 ∧ (s.head b).dirt = false := by
  rw [spare, Finset.mem_filter, Finset.mem_range]

/-- A clean buffer is left for a block that needs one. -/
theorem getblk_room (sync : Cache → ℕ → Except Stop Cache) (fuel : ℕ) (hi : Inv m s) (hr : s.Room m) {i : ℕ} (hin : i < nrInode)
    (hdev : dev ≠ 0) (hk : s.toWrite i = some (dev, block)) : ∃ b s₁,
    getblk m sync dev block (fuel + 2) s = .ok (b, s₁) ∧ Plain m s s₁ b dev block := by
  cases hf : s.findBuffer m dev block with
  | some b =>
    obtain ⟨s₁, h⟩ := getblk_found sync (fuel + 1) hi hf
    exact ⟨b, s₁, h⟩
  | none =>
    have hneed : (dev, block) ∈ s.needed m := by
      refine mem_needed.mpr ⟨⟨i, hin, hk⟩, ?_⟩
      rintro ⟨x, hx, hat, -⟩
      exact findBuffer_none hdev hf hx ⟨congrArg Prod.fst hat, congrArg Prod.snd hat⟩
    obtain ⟨x, hx⟩ : (s.spare m).Nonempty := by
      rw [← Finset.card_pos]
      exact Nat.lt_of_lt_of_le (Finset.card_pos.mpr ⟨_, hneed⟩) hr
    obtain ⟨hxN, hx0, hxd⟩ := mem_spare.mp hx
    have hxf := (hi.free x).mpr hxN
    cases hs : s.search none s.free with
    | none => exact absurd hx0 (search_none hs hxf)
    | some b =>
      have hclean : (s.head b).dirt = false := by
        by_contra hc
        have := (search_some hs).2.2 (by simpa using hc) x hxf hx0
        rw [hxd] at this
        cases this
      exact ⟨b, _, getblk_clean hf hs hclean, take_plain hi hdev hf hs hclean⟩

/-- An inode that is written takes up one clean buffer at most, and its block needs none. -/
theorem room_wrote (hi : Inv m s) (hr : s.Room m) {i : ℕ} (hin : i < nrInode)
    (hdev : dev ≠ 0) (hk : s.toWrite i = some (dev, block)) (hw : Wrote m s s' i b dev block) :
    s'.Room m ∧ ∀ j, j = i ∨ s.toWrite j = none → s'.toWrite j = none := by
  have hself : s'.toWrite i = none := by
    rw [toWrite, hw.inode, Function.update_self]
    rfl
  have hoff : ∀ j, j ≠ i → s'.toWrite j = s.toWrite j := by
    intro j hj
    rw [toWrite, toWrite, inodeBlock, inodeBlock, hw.inode, Function.update_of_ne hj,
      hw.keeps.super]
  have hbusy : s'.Busy m (dev, block) :=
    ⟨b, hw.bound, Prod.ext hw.at_.1 hw.at_.2, .inr hw.dirty⟩
  refine ⟨?_, fun j hj => ?_⟩
  swap
  · by_cases hji : j = i
    · rw [hji, hself]
    · rw [hoff j hji]
      exact hj.resolve_left hji
  have hneeded : s'.needed m ⊆ (s.needed m).erase (dev, block) := by
    intro k hk'
    obtain ⟨⟨j, hj, hjk⟩, hnot⟩ := mem_needed.mp hk'
    have hji : j ≠ i := by
      rintro rfl
      rw [hself] at hjk
      cases hjk
    refine Finset.mem_erase.mpr ⟨fun h => hnot (h ▸ hbusy), mem_needed.mpr
      ⟨⟨j, hj, hoff j hji ▸ hjk⟩, ?_⟩⟩
    -- a busy buffer stays so, and `b` is busy after the write
    rintro ⟨x, hx, hat, hx'⟩
    by_cases hxb : x = b
    · rcases hw.from_ with hb | ⟨-, h0, hd⟩
      · refine hnot ?_
        rw [← hat, hxb, hb.1, hb.2]
        exact hbusy
      · rw [hxb, h0, hd] at hx'
        exact hx'.elim (fun h => h rfl) Bool.false_ne_true.elim
    · refine hnot ⟨x, hx, ?_, ?_⟩
      · rw [hw.dev x hxb, hw.blocknr x hxb]
        exact hat
      · rw [hw.keeps.count, hw.dirt x hxb]
        exact hx'
  have hspare : ∀ x, x ≠ b → x ∈ s.spare m → x ∈ s'.spare m := by
    intro x hx hmem
    rw [mem_spare] at hmem ⊢
    rw [hw.keeps.count, hw.dirt x hx]
    exact hmem
  have hle := Finset.card_le_card hneeded
  rw [Room]
  by_cases hb : b ∈ s.spare m
  · -- the buffer was clean, so the block needed it
    obtain ⟨-, h0, hd⟩ := mem_spare.mp hb
    have hneed : (dev, block) ∈ s.needed m := by
      refine mem_needed.mpr ⟨⟨i, hin, hk⟩, ?_⟩
      rintro ⟨x, hx, hat, hx'⟩
      have hatx : s.At x dev block := ⟨congrArg Prod.fst hat, congrArg Prod.snd hat⟩
      rcases hw.from_ with hb' | ⟨hnone, -⟩
      · have hxb : x = b := hi.unique x b hx hw.bound (hatx.1 ▸ hdev)
          (hatx.1.trans hb'.1.symm) (hatx.2.trans hb'.2.symm)
        rw [hxb, h0, hd] at hx'
        exact hx'.elim (fun h => h rfl) Bool.false_ne_true.elim
      · exact hnone x hx hatx
    have hsub : s.spare m ⊆ insert b (s'.spare m) := by
      intro x hx
      by_cases hxb : x = b
      · exact Finset.mem_insert.mpr (.inl hxb)
      · exact Finset.mem_insert_of_mem (hspare x hxb hx)
    have hcard := (Finset.card_le_card hsub).trans (Finset.card_insert_le _ _)
    rw [Finset.card_erase_of_mem hneed] at hle
    have hpos := Finset.card_pos.mpr ⟨_, hneed⟩
    have hroom : (s.needed m).card ≤ (s.spare m).card := hr
    omega
  · have hsub : s.spare m ⊆ s'.spare m := fun x hx =>
      hspare x (fun h => hb (h ▸ hx)) hx
    exact (hle.trans Finset.card_erase_le).trans (hr.trans (Finset.card_le_card hsub))

/-- What a loop over inodes comes to. -/
def Synced (m : Machine) (s : Cache) (l : List ℕ) (r : Except Stop Cache) : Prop :=
  r = .error .panic ∨ ∃ s', r = .ok s' ∧ Keeps m s s' ∧ s'.Room m ∧
    ∀ j, j ∈ l ∨ s.toWrite j = none → s'.toWrite j = none

/-- With room for its inodes, `sync_inodes` writes them all. -/
theorem syncInodes_room (fuel : ℕ) (hi : Inv m s) (hr : s.Room m) {l : List ℕ}
    (hl : ∀ i ∈ l, i < nrInode) : Synced m s l (s.syncInodes m (fuel + 2) l) := by
  induction l generalizing s with
  | nil => exact .inr ⟨s, rfl, .refl hi, hr, fun j hj => hj.resolve_left (by simp)⟩
  | cons i l ih =>
    have hl' : ∀ j ∈ l, j < nrInode := fun j hj => hl j (List.mem_cons_of_mem _ hj)
    -- the other inodes, once this one needs no buffer any more
    have hrest : ∀ s₁, Keeps m s s₁ → s₁.Room m →
        (∀ j, j = i ∨ s.toWrite j = none → s₁.toWrite j = none) →
        Synced m s (i :: l) (s₁.syncInodes m (fuel + 2) l) := by
      intro s₁ hk hr₁ hw₁
      rcases ih hk.inv hr₁ hl' with h | ⟨s', h, hk', hr', hw'⟩
      · exact .inl h
      · refine .inr ⟨s', h, hk.trans hk', hr', fun j hj => hw' j ?_⟩
        rcases hj with hj | hj
        · exact (List.mem_cons.mp hj).symm.imp_right fun h => hw₁ j (.inl h)
        · exact .inr (hw₁ j (.inr hj))
    have hsame : s.toWrite i = none →
        Synced m s (i :: l) (s.syncInodes m (fuel + 2) l) := fun hn =>
      hrest s (.refl hi) hr fun j hj => hj.elim (fun h => h ▸ hn) id
    rw [syncInodes]
    by_cases hc : ((s.inode i).dirt && !(s.inode i).pipe) = true
    swap
    · rw [if_neg hc]
      refine hsame ?_
      rw [toWrite, if_neg]
      rw [Bool.and_eq_true]
      exact fun h => hc h.1
    rw [if_pos hc]
    have hd := (Bool.and_eq_true_iff.mp hc).1
    by_cases hdev : (s.inode i).dev = 0
    · -- an inode of no device stays dirty
      have hok : s.writeInode m (fuel + 2) i = .ok s := by
        rw [writeInode, if_pos]
        rw [hdev, beq_self_eq_true, Bool.or_true]
      rw [hok]
      refine hsame ?_
      rw [toWrite, hdev, if_neg]
      rw [Bool.and_eq_true]
      exact fun h => absurd h.2 Bool.false_ne_true
    have htw : s.toWrite i = s.inodeAt i := by
      rw [toWrite, if_pos]
      · rfl
      · rw [Bool.and_eq_true]
        exact ⟨hc, bne_iff_ne.mpr hdev⟩
    cases hb : s.inodeBlock i with
    | none =>
      left
      rw [writeInode, hd, beq_eq_false_iff_ne.mpr hdev, hb]
      rfl
    | some block =>
      rw [inodeAt_eq hb] at htw
      have hin := hl i List.mem_cons_self
      obtain ⟨b, s₁, hget, hp⟩ := getblk_room syncLocked fuel hi hr hin
        hdev htw
      rcases writeInode_wrote hi hd hdev hb hget hp with h | ⟨s', h, hw⟩
      · left
        rw [h]
        rfl
      · rw [h]
        obtain ⟨hr', hw'⟩ := room_wrote hi hr hin hdev htw hw
        exact hrest s' hw.keeps hr' hw'

/-- Where no inode needs a buffer, `sync_inodes` does nothing. -/
theorem syncInodes_idle (m : Machine) (fuel : ℕ) {l : List ℕ} (h : ∀ i ∈ l, s.toWrite i = none) :
    s.syncInodes m fuel l = .error .panic ∨ s.syncInodes m fuel l = .ok s := by
  induction l with
  | nil => exact .inr rfl
  | cons i l ih =>
    have ih := ih fun j hj => h j (List.mem_cons_of_mem _ hj)
    rw [syncInodes]
    by_cases hc : ((s.inode i).dirt && !(s.inode i).pipe) = true
    swap
    · rw [if_neg hc]
      exact ih
    rw [if_pos hc, writeInode]
    by_cases hw : (!(s.inode i).dirt || (s.inode i).dev == 0) = true
    · rw [if_pos hw]
      exact ih
    · rw [if_neg hw]
      have hn := h i List.mem_cons_self
      rw [Bool.or_eq_true, not_or] at hw
      rw [toWrite, if_pos (by rw [hc, bne, Bool.eq_false_iff.mpr hw.2]; rfl),
        Option.map_eq_none_iff] at hn
      rw [hn]
      exact .inl rfl

/-- `sync_dev` with room for the inodes. -/
theorem syncDev_room (fuel : ℕ) (hi : Inv m s) (hr : (s.cleaned dev).Room m) :
    s.syncDev m (fuel + 2) dev = .error .panic ∨ ∃ s', s.syncDev m (fuel + 2) dev = .ok s' ∧
      ∀ i < nrInode, s'.toWrite i = none := by
  have hw := writeOut_mild (m := m) (p := (· == dev)) (List.range m.nrBuffers) s
  have hs := syncInodes_room fuel (hw.inv hi) ((room_writeOut hi).mpr hr)
    (l := List.range nrInode) fun i h => List.mem_range.mp h
  rw [syncDev]
  rcases hs with h | ⟨s', h, -, -, hnone⟩
  · left
    rw [h]
    rfl
  · right
    rw [h]
    refine ⟨_, rfl, fun i hin => ?_⟩
    have hw' := writeOut_mild (m := m) (p := (· == dev)) (List.range m.nrBuffers) s'
    rw [toWrite_congr hw'.inode hw'.super]
    exact hnone i (.inl (List.mem_range.mpr hin))

/-- `sync_dev` when no inode is left to write. -/
theorem syncDev_idle (m : Machine) (fuel dev : ℕ) (h : ∀ i < nrInode, s.toWrite i = none) :
    s.syncDev m fuel dev = .error .panic ∨
      ∃ s', s.syncDev m fuel dev = .ok s' ∧ Mild m s s' := by
  have hw := writeOut_mild (m := m) (p := (· == dev)) (List.range m.nrBuffers) s
  have hs := syncInodes_idle m fuel
    (s := s.writeOut m (· == dev) (List.range m.nrBuffers)) (l := List.range nrInode)
    fun i hin => (toWrite_congr hw.inode hw.super i).trans (h i (List.mem_range.mp hin))
  rw [syncDev]
  rcases hs with h | h
  · left
    rw [h]
    rfl
  · right
    rw [h]
    exact ⟨_, rfl, hw.trans (writeOut_mild _ _)⟩

/-- The loop of `getblk` ends after the second `sync_dev` at the latest: the first one
writes all inodes, and if it has used the buffer for one of them the second one cleans it. -/
theorem clean_ends (hi : Inv m s) (hb : b < m.nrBuffers)
    (hr : (s.head b).dirt = true → (s.cleaned (s.head b).dev).Room m) {k : ℕ} :
    clean m (syncDev m (k + 2)) b (fuel + 3) s = .error .panic ∨
      ∃ r, clean m (syncDev m (k + 2)) b (fuel + 3) s = .ok r := by
  rw [clean]
  by_cases hd : (s.head b).dirt = true
  swap
  · rw [if_neg hd]
    exact .inr ⟨_, rfl⟩
  rw [if_pos hd]
  rcases syncDev_room k hi (hr hd) with h | ⟨s₁, h, hnone⟩
  · left
    rw [h]
    rfl
  have hi₁ := (syncDev_keeps m _ s _ s₁ hi h).inv
  have hw₁ := waitOnBuffer_mild (m := m) s₁ b
  have hnone₁ : ∀ i < nrInode, (s₁.waitOnBuffer m b).toWrite i = none := fun i hin =>
    (toWrite_congr hw₁.inode hw₁.super i).trans (hnone i hin)
  rw [h]
  show (if ((s₁.waitOnBuffer m b).head b).count ≠ 0 then _ else _) = _ ∨ ∃ r,
    (if ((s₁.waitOnBuffer m b).head b).count ≠ 0 then _ else _) = _
  by_cases hc : ((s₁.waitOnBuffer m b).head b).count ≠ 0
  · rw [if_pos hc]
    exact .inr ⟨_, rfl⟩
  rw [if_neg hc, clean]
  by_cases hd₁ : ((s₁.waitOnBuffer m b).head b).dirt = true
  swap
  · rw [if_neg hd₁]
    exact .inr ⟨_, rfl⟩
  rw [if_pos hd₁]
  rcases syncDev_idle m (k + 2) ((s₁.waitOnBuffer m b).head b).dev hnone₁ with
    h₂ | ⟨s₂, h₂, hm₂⟩
  · left
    rw [h₂]
    rfl
  have hclean := syncDev_clean (hw₁.inv hi₁) h₂ hb (hm₂.dev b)
  rw [h₂]
  show (if ((s₂.waitOnBuffer m b).head b).count ≠ 0 then _ else _) = _ ∨ ∃ r,
    (if ((s₂.waitOnBuffer m b).head b).count ≠ 0 then _ else _) = _
  by_cases hc₂ : ((s₂.waitOnBuffer m b).head b).count ≠ 0
  · rw [if_pos hc₂]
    exact .inr ⟨_, rfl⟩
  rw [if_neg hc₂, clean, if_neg]
  · exact .inr ⟨_, rfl⟩
  · rw [waitOnBuffer_dirt, hclean]
    exact Bool.false_ne_true

end Cache

/-- The call comes back, panics, or sleeps until a buffer is free. -/
def Ends {α : Type} (r : Except Stop α) : Prop :=
  ∀ e, r = .error e → e = .panic ∨ e = .noBuffer

namespace Ends

variable {α β : Type} {x : Except Stop α} {f : α → Except Stop β}

theorem ok (a : α) : Ends (.ok a : Except Stop α) := fun _ h => nomatch h

theorem panic : Ends (.error .panic : Except Stop α) := fun _ h => .inl (by cases h; rfl)

theorem noBuffer : Ends (.error .noBuffer : Except Stop α) := fun _ h => .inr (by cases h; rfl)

theorem of_panic (h : x = .error .panic ∨ ∃ a, x = .ok a) : Ends x := by
  rcases h with rfl | ⟨a, rfl⟩
  · exact panic
  · exact ok a

theorem bind (hx : Ends x) (hf : ∀ a, x = .ok a → Ends (f a)) : Ends (x >>= f) := by
  cases x with
  | error e => exact fun e' h => hx e' (by cases h; rfl)
  | ok a => exact hf a rfl

theorem map {g : α → β} (hx : Ends x) : Ends (x.map g) := by
  cases x with
  | error e => exact fun e' h => hx e' (by cases h; rfl)
  | ok a => exact ok _

end Ends

namespace Cache

variable {m : Machine} {s s' : Cache} {b dev fuel : ℕ} {block : ℤ}

/-- `getblk` ends if there is room for the inodes where it calls `sync_dev`. -/
theorem getblk_ends (hi : Inv m s) (h : s.Clears m (dev, block)) (hfuel : 4 ≤ fuel) :
    Ends (getblk m (syncDev m fuel) dev block fuel s) := by
  obtain ⟨k, rfl⟩ := Nat.exists_eq_add_of_le' hfuel
  rw [Clears, Supply] at h
  cases hf : s.findBuffer m dev block with
  | some b =>
    obtain ⟨s', hok, -⟩ := getblk_found (syncDev m (k + 4)) (k + 3) hi hf
    rw [hok]
    exact .ok _
  | none =>
    rw [hf] at h
    rw [getblk, hf]
    cases hs : s.search none s.free with
    | none => exact .noBuffer
    | some b =>
      rw [hs] at h
      have hw := waitOnBuffer_mild (m := m) s b
      obtain ⟨hmem, h0, -⟩ := search_some hs
      dsimp only
      rw [if_neg (by rw [hw.count, h0]; exact not_not.mpr rfl)]
      refine Ends.bind (.of_panic (clean_ends (hw.inv hi) ((hi.free b).mp hmem) ?_)) ?_
      · intro hd
        rw [waitOnBuffer_dirt] at hd
        rw [hw.dev, room_cleaned hw fun x => waitOnBuffer_dirt s b x]
        exact h hd
      · rintro ⟨again, s₁⟩ hclean
        obtain ⟨hk, -, hcount⟩ :=
          clean_keeps (syncDev_keeps m (k + 4)) (hw.inv hi) (waitOnBuffer_lock s b) hclean
        have hagain : again = false := by
          by_contra hc
          refine hcount (by simpa using hc) ?_
          rw [hk.count, hw.count, h0]
        dsimp only
        rw [hagain, Bool.false_or]
        cases hf₁ : s₁.findBuffer m dev block with
        | none => exact .ok _
        | some x =>
          -- an inode block that `sync_dev` has read is the block itself
          obtain ⟨s', hok, -⟩ := getblk_found (syncDev m (k + 4)) (k + 2) hk.inv hf₁
          rw [if_pos (by rfl), hok]
          exact .ok _

/-- With an inode locked, `getblk` ends if a clean buffer is left. -/
theorem getblk_locked_ends (hi : Inv m s) (h : s.Spares m (dev, block)) (hfuel : 2 ≤ fuel) :
    Ends (getblk m syncLocked dev block fuel s) := by
  obtain ⟨k, rfl⟩ := Nat.exists_eq_add_of_le' hfuel
  rw [Spares, Supply] at h
  cases hf : s.findBuffer m dev block with
  | some b =>
    obtain ⟨s', hok, -⟩ := getblk_found syncLocked (k + 1) hi hf
    rw [hok]
    exact .ok _
  | none =>
    rw [hf] at h
    cases hs : s.search none s.free with
    | none =>
      rw [getblk, hf, hs]
      exact .noBuffer
    | some b =>
      rw [hs] at h
      rw [getblk_clean hf hs (Bool.eq_false_iff.mpr h)]
      exact .ok _

theorem brelse_ends (s : Cache) (b : ℕ) : Ends (s.brelse m b) := by
  rw [brelse]
  split
  · exact .panic
  · exact .ok _

theorem breadWait_ends (s : Cache) (b : ℕ) : Ends (s.breadWait m b) := by
  rw [breadWait]
  split
  · exact .ok _
  · exact (brelse_ends _ b).bind fun _ _ => .ok _

theorem breadFrom_ends (s : Cache) (b : ℕ) : Ends (s.breadFrom m b) := by
  rw [breadFrom]
  split
  · exact .ok _
  · exact breadWait_ends _ b

theorem bread_ends {sync : Cache → ℕ → Except Stop Cache}
    (h : Ends (getblk m sync dev block fuel s)) : Ends (s.bread m sync fuel dev block) :=
  h.bind fun r _ => (breadFrom_ends r.2 r.1).bind fun _ _ => .ok _

theorem writeInode_ends (hi : Inv m s) {i : ℕ} (hfuel : 2 ≤ fuel)
    (h : (s.inode i).dirt = true → (s.inode i).dev ≠ 0 → ∀ k ∈ s.inodeAt i, s.Spares m k) :
    Ends (s.writeInode m fuel i) := by
  rw [writeInode]
  split
  · exact .ok s
  case isFalse hc =>
    rw [Bool.or_eq_true, not_or, Bool.not_eq_true', Bool.not_eq_false, beq_iff_eq] at hc
    cases hb : s.inodeBlock i with
    | none => exact .panic
    | some block =>
      have hs := h hc.1 hc.2 _ (inodeAt_eq hb)
      refine (bread_ends (getblk_locked_ends hi hs hfuel)).bind ?_
      rintro ⟨r, s₁⟩ -
      cases r with
      | none => exact .panic
      | some b => exact brelse_ends _ b

theorem sizeOf_ends (h : major dev < nrBlkDev) : Ends (m.sizeOf dev) := by
  rw [Machine.sizeOf, if_neg (Nat.not_le.mpr h)]
  exact .ok _

theorem readInode_ends (hi : Inv m s) {i : ℕ} {node : Option ℕ} (hfuel : 2 ≤ fuel)
    (hnode : ∀ zone ∈ node, major zone < nrBlkDev) (h : ∀ k ∈ s.inodeAt i, s.Spares m k) :
    Ends (s.readInode m fuel i node) := by
  rw [readInode]
  cases hb : s.inodeBlock i with
  | none => exact .panic
  | some block =>
    refine (bread_ends (getblk_locked_ends hi (h _ (inodeAt_eq hb)) hfuel)).bind ?_
    rintro ⟨r, s₁⟩ -
    cases r with
    | none => exact .panic
    | some b =>
      refine (brelse_ends s₁ b).bind fun s₂ _ => ?_
      cases node with
      | none => exact .ok _
      | some zone => exact (sizeOf_ends (hnode zone rfl)).bind fun _ _ => .ok _

theorem syncDev_ends (hi : Inv m s) (h : (s.cleaned dev).Room m) (hfuel : 2 ≤ fuel) :
    Ends (s.syncDev m fuel dev) := by
  obtain ⟨k, rfl⟩ := Nat.exists_eq_add_of_le' hfuel
  exact .of_panic ((syncDev_room k hi h).imp_right fun ⟨s', hs, _⟩ => ⟨s', hs⟩)

theorem sysSync_ends (hi : Inv m s) (h : s.Room m) (hfuel : 2 ≤ fuel) :
    Ends (s.sysSync m fuel) := by
  obtain ⟨k, rfl⟩ := Nat.exists_eq_add_of_le' hfuel
  refine Ends.bind (.of_panic ?_) fun _ _ => .ok _
  exact (syncInodes_room k hi h fun i hin => List.mem_range.mp hin).imp_right
    fun ⟨s', hs, _⟩ => ⟨s', hs⟩

theorem newBlock_ends (hi : Inv m s) (h : s.Clears m (dev, block)) (hfuel : 4 ≤ fuel) :
    Ends (s.newBlock m fuel dev block) := by
  rw [newBlock]
  cases s.super dev with
  | none => exact .panic
  | some sb =>
    refine (getblk_ends hi h hfuel).bind ?_
    rintro ⟨b, s₁⟩ -
    dsimp only
    split
    · exact .panic
    · exact brelse_ends _ b

theorem newBlock_keeps (hi : Inv m s) (h : s.newBlock m fuel dev block = .ok s') :
    Keeps m s s' := by
  rw [newBlock] at h
  cases hsb : s.super dev with
  | none =>
    rw [hsb] at h
    cases h
  | some sb =>
    rw [hsb] at h
    obtain ⟨⟨b, s₁⟩, h₁, h₂⟩ := Except.ok_of_bind h
    dsimp only at h₂
    split at h₂
    · cases h₂
    have hg := getblk_gets (syncDev_keeps m fuel) hi h₁
    have hserved := hi.super dev sb hsb
    have hup : Mild m s₁ (s₁.setHead b { s₁.head b with uptodate := true }) :=
      .setHead rfl rfl rfl id fun _ => .inr (.inr (hg.got.1 ▸ hserved))
    exact ((hg.mild hup).setDirt hserved).brelse h₂

theorem forget_mild (s : Cache) (b : ℕ) :
    Mild m s (s.setHead b { s.head b with uptodate := false, dirt := false }) :=
  .setHead rfl rfl rfl nofun fun h => h.imp_right fun h => nomatch h

theorem freeBlock_ends (s : Cache) (dev : ℕ) (block : ℤ) : Ends (s.freeBlock m dev block) := by
  rw [freeBlock]
  cases s.super dev with
  | none => exact .panic
  | some sb =>
    dsimp only
    cases s.findBuffer m dev block with
    | none => exact .ok s
    | some b =>
      dsimp only
      split
      · exact brelse_ends _ b
      · exact brelse_ends _ b

theorem freeBlock_keeps (hi : Inv m s) (h : s.freeBlock m dev block = .ok s') :
    Keeps m s s' := by
  rw [freeBlock] at h
  cases hsb : s.super dev with
  | none =>
    rw [hsb] at h
    cases h
  | some sb =>
    rw [hsb] at h
    cases hf : s.findBuffer m dev block with
    | none =>
      rw [hf] at h
      cases h
      exact .refl hi
    | some b =>
      rw [hf] at h
      have hg := hold_gets hi (findBuffer_some hf).2.1
      dsimp only at h
      split at h
      · exact hg.brelse h
      · exact (hg.mild (forget_mild _ b)).brelse h

theorem invalidateBuffers_mild (dev : ℕ) (l : List ℕ) (s : Cache) :
    Mild m s (s.invalidateBuffers m dev l) := by
  induction l generalizing s with
  | nil => exact .refl s
  | cons b l ih =>
    rw [invalidateBuffers]
    split
    · have hw := waitOnBuffer_mild (m := m) s b
      dsimp only
      split
      · exact (hw.trans (forget_mild _ b)).trans (ih _)
      · exact hw.trans (ih _)
    · exact ih s

end Cache

end Fs.Cleaning
