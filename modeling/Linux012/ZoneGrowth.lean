/-
Blocks that are taken for the places of some inodes (`new_block`, `_bmap`), and given back.

* `Zones.Grows` — a change that takes blocks for places of some inodes;
* `create_grows` — what `create_block` does is such a change;
* `createBlock_full` — it fails for want of a free zone only;
* `Zones.store` — a block of a file is written;
* `Zones.forget` — an inode and its first block are given back;
* `Grows.forget` — what is left then.
-/
import Linux012.CreateBlock
import Linux012.Truncate

namespace Fs

open Function (update)

namespace Zones

/-- Blocks have been taken for places of the inodes of `D`; what has become the block of a file
is empty, but for the inodes of `N`. -/
structure Grows (D N : ℕ → Prop) (s s' : Zones) : Prop where
  fills : Fills s s' fun i _ => D i
  blocks : ∀ n, s.firstDataZone ≤ n → n < s.nZones → s'.Marked n →
    s.Marked n ∨ ∃ i ks, D i ∧ IsPath ks ∧ s'.named i ks = n
  fresh : ∀ i ks, IsPath ks → s'.named i ks ≠ s.named i ks → ¬ s.Marked (s'.named i ks)
  data : ∀ i b, b < maxBlock → s.named i (path b) ≠ 0 →
    s'.data (s.named i (path b)) = s.data (s.named i (path b))
  zero : ∀ i b, b < maxBlock → ¬ N i → s.named i (path b) = 0 → s'.named i (path b) ≠ 0 →
    ∀ w, s'.data (s'.named i (path b)) w = 0

variable {s s' s₁ : Zones} {D D' N N' : ℕ → Prop} {ok : ℕ → Bool} {i i' k m j n b : ℕ}
  {ks π : List ℕ} {here : Option ℕ}

/-! ### Changes one after the other -/

theorem Fills.marked {P : ℕ → List ℕ → Prop} (h : Fills s s' P) (hn : s.Marked n) :
    s'.Marked n := by
  rw [Marked, h.firstDataZone]
  exact h.bits _ _ hn

theorem Grows.refl (h : s.Owned) : Grows D N s s where
  fills := .refl h
  blocks _ _ _ hm := .inl hm
  fresh _ _ _ hne := absurd rfl hne
  data _ _ _ _ := rfl
  zero _ _ _ _ hzero hne := absurd hzero hne

/-- A place of an inode that does not grow stays as it is. -/
theorem Grows.zone (h : Grows D N s s') (hi : ¬ D i) (hk : k < 9) : s'.zone i k = s.zone i k :=
  h.fills.frame (fun _ => true) i [k] (.inl ⟨k, hk, rfl⟩) hi

theorem Grows.mono (h : Grows D N s s') (hD : ∀ i, D i → D' i) (hN : ∀ i, N i → N' i) :
    Grows D' N' s s' where
  fills := h.fills.weaken fun i _ => hD i
  blocks n hfirst hlast hm :=
    (h.blocks n hfirst hlast hm).imp_right fun ⟨i, ks, hi, hks⟩ => ⟨i, ks, hD i hi, hks⟩
  fresh := h.fresh
  data := h.data
  zero i b hb hi := h.zero i b hb fun hcon => hi (hN i hcon)

theorem Grows.trans (h : Grows D N s s₁) (h' : Grows D N s₁ s') : Grows D N s s' where
  fills := h.fills.trans h'.fills
  blocks n hfirst hlast hm := by
    have hlast₁ : n < s₁.nZones := h.fills.nZones ▸ hlast
    rcases h'.blocks n (h.fills.firstDataZone ▸ hfirst) hlast₁ hm with hm | hnamed
    · rcases h.blocks n hfirst hlast hm with hm | ⟨i, ks, hi, hks, rfl⟩
      · exact .inl hm
      · have hpos := s.firstDataZone_pos
        exact .inr ⟨i, ks, hi, hks, h'.fills.keeps i ks hks (by omega)⟩
    · exact .inr hnamed
  fresh i ks hks hne := by
    by_cases hmid : s'.named i ks = s₁.named i ks
    · rw [hmid] at hne ⊢
      exact h.fresh i ks hks hne
    · exact fun hm => h'.fresh i ks hks hmid (h.fills.marked hm)
  data i b hb hne := by
    have hkeeps := h.fills.keeps i _ (isPath_path hb) hne
    have hdata := h'.data i b hb (by rwa [hkeeps])
    rw [hkeeps] at hdata
    exact hdata.trans (h.data i b hb hne)
  zero i b hb hi hzero hne w := by
    by_cases hmid : s₁.named i (path b) = 0
    · exact h'.zero i b hb hi hmid hne w
    · -- the block has been there since the first change
      rw [h'.fills.keeps i _ (isPath_path hb) hmid, h'.data i b hb hmid]
      exact h.zero i b hb hi hzero hmid w

/-! ### One place -/

theorem marked_setBit (hsome : (s.zmap m).isSome) (hj : j < bitsPerBlock)
    (hn : s.firstDataZone ≤ n) :
    (s.setBit m j).Marked n ↔ s.Marked n ∨ n = s.zoneOf m j := by
  have hpos := s.firstDataZone_pos
  have hplace : ((n + 1 - s.firstDataZone) / bitsPerBlock = m ∧
      (n + 1 - s.firstDataZone) % bitsPerBlock = j) ↔ n = s.zoneOf m j := by
    rw [zoneOf]
    simp only [bitsPerBlock] at hj ⊢
    omega
  rw [Marked, show (s.setBit m j).firstDataZone = s.firstDataZone from rfl, bit_setBit hsome,
    hplace]
  rfl

/-- The block of a file has no places. -/
theorem not_isPath_below (b k : ℕ) : ¬ IsPath (path b ++ [k]) := by
  rcases path_cases b with ⟨hb₁, hp⟩ | ⟨-, -, hp⟩ | ⟨-, hp⟩
  · simp [hp, IsPath]
    omega
  · simp [hp, IsPath]
  · simp [hp, IsPath]

/-- One level of `create_block`. -/
theorem entry_grows (h : s.Owned) (hat : s.At ok i π here) (hpath : IsPath (π ++ [k])) :
    Grows (· = i) N s (s.entry true i here k).2 := by
  by_cases hzero : s.value i here k = 0
  swap
  · rw [entry_of_ne hzero]
    exact .refl h
  have hfills : Fills s (s.entry true i here k).2 fun i' _ => i' = i :=
    (entry_spec h hat hpath).1.weaken fun _ _ hp => hp.1
  rw [entry, if_pos ⟨rfl, hzero⟩, newBlock] at hfills ⊢
  rcases claimBlock_cases h with ⟨hclaim, -⟩ |
    ⟨m, j, hsome, hclear, hj, hpos, ⟨hclaim, -, hlast⟩ | ⟨hclaim, -, hlast⟩⟩
  · rw [hclaim]
    exact .refl h
  · -- the bit past the last zone is that of no block
    rw [hclaim] at hfills ⊢
    have hnamed : ∀ i ks, (s.setBit m j).named i ks = s.named i ks := fun _ _ => named_setBit
    refine ⟨hfills, fun n hn hn' hm => ?_, fun i' ks _ hne => absurd (hnamed i' ks) hne,
      fun _ _ _ _ => rfl, fun i' b _ _ hz hne => absurd ((hnamed i' _).trans hz) hne⟩
    rcases (marked_setBit hsome hj hn).mp hm with hm | rfl
    · exact .inl hm
    · omega
  · rw [hclaim] at hfills ⊢
    have hn₀ : s.zoneOf m j ≠ 0 := by
      have hfirst := s.firstDataZone_pos
      omega
    simp only [hn₀, if_false] at hfills ⊢
    have hunmarked : ¬ s.Marked (s.zoneOf m j) := fun hm => hclear ((marked_zoneOf hj).mp hm)
    have howned : (s.setBit m j).Owned := h.setBit hsome
    have hv : (s.setBit m j).value i here k = 0 := by rw [← hzero]; cases here <;> rfl
    have hat' : (s.setBit m j).At ok i π here := hat.congr fun _ => walk_congr rfl rfl
    -- nothing named the block
    have hn : ∀ i' ks', IsPath ks' → s.named i' ks' ≠ s.zoneOf m j := fun i' ks' hks' heq =>
      hunmarked (heq ▸ h.marked i' ks' hks' (heq ▸ hn₀))
    set s₂ := ((s.setBit m j).clearBlock (s.zoneOf m j)).setValue i here k (s.zoneOf m j) with hs₂
    have hnamed : ∀ {i' ks'}, IsPath ks' → s₂.named i' ks' =
        if i' = i ∧ ks' = π ++ [k] then s.zoneOf m j else s.named i' ks' := by
      intro i' ks' hks'
      rw [hs₂, named_setValue howned hat' hv (fun i' ks' hks' => by
        rw [named_setBit]
        exact hn i' ks' hks') hks', named_setBit]
    have hmarked : ∀ n, s₂.Marked n ↔ (s.setBit m j).Marked n := fun n => by
      rw [hs₂]
      cases here <;> exact Iff.rfl
    -- the block that is stored to is no block of a file
    have hdata : ∀ v i' b, b < maxBlock → v ≠ 0 → s.named i' (path b) = v →
        s₂.data v = s.data v := by
      intro v i' b hb hv₀ hvb
      have hvn : v ≠ s.zoneOf m j := hvb ▸ hn i' _ (isPath_path hb)
      rw [hs₂]
      rcases hat with ⟨-, rfl⟩ | ⟨hπ, hne, -, rfl⟩
      · exact Function.update_of_ne hvn _ _
      · have hvz : v ≠ s.walk ok i none π := by
          intro hv
          rw [walk_eq_named hπ.ne_nil hne] at hv
          obtain ⟨-, heq⟩ := h.distinct i' i _ π (isPath_path hb) hπ (hvb ▸ hv₀) (hvb.trans hv)
          rw [← heq] at hpath
          exact not_isPath_below b k hpath
        exact (Function.update_of_ne hvz _ _).trans (Function.update_of_ne hvn _ _)
    refine ⟨hfills, fun n hfirst _ hm => ?_, fun i' ks' hks' hne => ?_, fun i' b hb hne => ?_,
      fun i' b hb _ hz hne w => ?_⟩
    · rw [hmarked, marked_setBit hsome hj hfirst] at hm
      refine hm.imp_right fun heq => ⟨i, π ++ [k], rfl, hpath, ?_⟩
      rw [hnamed hpath, if_pos ⟨rfl, rfl⟩, heq]
    · rw [hnamed hks'] at hne ⊢
      split at hne
      case isTrue hp => rwa [if_pos hp]
      case isFalse => exact absurd rfl hne
    · exact hdata _ i' b hb hne rfl
    · rw [hnamed (isPath_path hb)] at hne ⊢
      split at hne
      case isFalse => exact absurd hz hne
      case isTrue hp =>
        rw [if_pos hp, hs₂]
        rcases hat with ⟨-, rfl⟩ | ⟨hπ, hne', -, rfl⟩
        · simp only [setValue, clearBlock, Function.update_self]
        · have hz' : s.zoneOf m j ≠ s.walk ok i none π := by
            rw [walk_eq_named hπ.ne_nil hne']
            exact (hn i π hπ).symm
          simp only [setValue, clearBlock, Function.update_of_ne hz', Function.update_self]

/-! ### `create_block` -/

theorem bmapFrom_grows (h : s.Owned) (hat : s.At ok i π here) (hks : ks ≠ [])
    (hpath : ∀ l l', ks = l ++ l' → l ≠ [] → IsPath (π ++ l)) :
    Grows (· = i) N s (s.bmapFrom true ok i here ks).2 := by
  induction ks generalizing s π here with
  | nil => exact absurd rfl hks
  | cons k ks ih =>
    have hplace : IsPath (π ++ [k]) := hpath [k] ks rfl (by simp)
    have hentry : Grows (· = i) N s (s.entry true i here k).2 := entry_grows h hat hplace
    by_cases hlast : ks = []
    · subst hlast
      exact hentry
    rw [bmapFrom_cons hlast]
    by_cases hv : (s.entry true i here k).1 = 0 ∨ ok (s.entry true i here k).1 = false
    · rw [if_pos hv]
      exact hentry
    · rw [if_neg hv]
      rw [not_or] at hv
      refine hentry.trans (ih hentry.fills.owned (hat.next h hplace hv.1 (by simpa using hv.2))
        hlast fun l l' heq hl => ?_)
      rw [List.append_assoc]
      exact hpath (k :: l) l' (by rw [heq]; rfl) (by simp)

/-- A call of `create_block` takes blocks for its inode. -/
theorem create_grows (h : s.Owned) {r : ℕ} (hc : s.createBlock ok i b = some (r, s')) :
    Grows (· = i) N s s' := by
  rw [createBlock] at hc
  split at hc
  case isFalse => cases hc
  case isTrue hb =>
    have hgrows : Grows (· = i) N s (s.bmapFrom true ok i none (path b)).2 :=
      bmapFrom_grows (π := []) h (.inl ⟨rfl, rfl⟩) (isPath_path hb).ne_nil fun l l' heq hl => by
        have hpath := isPath_path hb
        rw [heq] at hpath
        exact hpath.left hl
    rwa [Option.some.inj hc] at hgrows

/-! ### A device without a free zone -/

/-- The bitmap has no clear bit of a zone. -/
def Full (s : Zones) : Prop :=
  ∀ m j, m < 8 → j < bitsPerBlock → (s.zmap m).isSome → s.zoneOf m j < s.nZones → s.Bit m j

theorem findFirstZero_before (bits : ℕ → Bool) (n j : ℕ) :
    ∀ l, j ≤ l → l < findFirstZero bits n j → bits l = true := by
  induction n generalizing j with
  | zero =>
    intro l hle hlt
    rw [findFirstZero] at hlt
    omega
  | succ n ih =>
    intro l hle hlt
    rw [findFirstZero] at hlt
    split at hlt
    case isTrue hb =>
      by_cases hl : l = j
      · rwa [hl]
      · exact ih (j + 1) l (by omega) hlt
    case isFalse => omega

/-- A bit is set, or the bit that is found is not behind it. -/
theorem findBit_before {m' j' : ℕ} (hle : i ≤ m') (hlt : m' < i + n) (hj' : j' < bitsPerBlock)
    (hsome : (s.zmap m').isSome) : s.Bit m' j' ∨
      ∃ m j, s.findBit n i = some (m, j) ∧ (m < m' ∨ m = m' ∧ j ≤ j') := by
  induction n generalizing i with
  | zero => omega
  | succ n ih =>
    rw [findBit]
    by_cases hi : i = m'
    · -- the buffer of this bit
      subst hi
      obtain ⟨bits, hbits⟩ := Option.isSome_iff_exists.mp hsome
      rw [hbits]
      dsimp only
      by_cases hbefore : j' < findFirstZero bits bitsPerBlock 0
      · exact .inl ⟨bits, hbits, findFirstZero_before bits _ _ j' (Nat.zero_le _) hbefore⟩
      · rw [if_pos (by omega)]
        exact .inr ⟨_, _, rfl, .inr ⟨rfl, Nat.not_lt.mp hbefore⟩⟩
    · have hrest := ih (i := i + 1) (by omega) (by omega)
      cases hz : s.zmap i with
      | none => exact hrest
      | some bits =>
        dsimp only
        by_cases hfound : findFirstZero bits bitsPerBlock 0 < bitsPerBlock
        · rw [if_pos hfound]
          exact .inr ⟨_, _, rfl, .inl (by omega)⟩
        · rw [if_neg hfound]
          exact hrest

/-- `new_block` fails for want of a free zone only. -/
theorem newBlock_full (h : s.Owned) (hzero : s.newBlock.1 = 0) : s.newBlock.2.Full := by
  have hpos := s.firstDataZone_pos
  have hbefore : ∀ m' j', m' < 8 → j' < bitsPerBlock → (s.zmap m').isSome →
      s.zoneOf m' j' < s.nZones → ¬ s.Bit m' j' →
        ∃ m j, s.findBit 8 0 = some (m, j) ∧ s.zoneOf m j < s.nZones := by
    intro m' j' hm' hj' hsome hlast hclear
    have hor : s.Bit m' j' ∨
        ∃ m j, s.findBit 8 0 = some (m, j) ∧ (m < m' ∨ m = m' ∧ j ≤ j') :=
      findBit_before (Nat.zero_le m') (by omega) hj' hsome
    obtain ⟨m, j, hfind, hle⟩ := hor.resolve_left hclear
    refine ⟨m, j, hfind, Nat.lt_of_le_of_lt ?_ hlast⟩
    have hj := (findBit_spec hfind).1
    simp only [zoneOf, bitsPerBlock] at hj hj' ⊢
    omega
  rw [newBlock] at hzero ⊢
  rcases claimBlock_cases h with ⟨hclaim, hpast⟩ |
    ⟨m, j, hsome, hclear, hj, hdata, ⟨hclaim, hpast, hlast⟩ | ⟨hclaim, hpast, hlast⟩⟩
  · rw [hclaim]
    intro m' j' hm' hj' hsome hlast
    by_contra hclear
    obtain ⟨m, j, hfind, hzone⟩ := hbefore m' j' hm' hj' hsome hlast hclear
    rw [claimBlock, hfind] at hclaim
    dsimp only at hclaim
    rw [if_neg (by omega)] at hclaim
    cases hclaim
  · rw [hclaim]
    intro m' j' hm' hj' hsome' hlast'
    by_contra hclear'
    have hsome'' : (s.zmap m').isSome := by
      rw [setBit] at hsome'
      dsimp only at hsome'
      by_cases hm : m' = m
      · rwa [hm]
      · rwa [Function.update_of_ne hm] at hsome'
    obtain ⟨m₁, j₁, hfind, hzone⟩ := hbefore m' j' hm' hj' hsome'' hlast' fun hb =>
      hclear' ((bit_setBit hsome).mpr (.inl hb))
    obtain ⟨m₂, j₂, hfind₂, hpast₂⟩ := hpast
    rw [hfind] at hfind₂
    cases hfind₂
    omega
  · rw [hclaim] at hzero
    dsimp only at hzero
    omega

/-- A level of `create_block` fails for want of a free zone only. -/
theorem entry_full (h : s.Owned) (hzero : (s.entry true i here k).1 = 0) :
    (s.entry true i here k).2.Full := by
  by_cases hv : s.value i here k = 0
  swap
  · rw [entry_of_ne hv] at hzero
    exact absurd hzero hv
  rw [entry, if_pos ⟨rfl, hv⟩] at hzero ⊢
  have hfull := newBlock_full h
  dsimp only at hzero ⊢
  by_cases hn : s.newBlock.1 = 0
  · rw [if_pos hn]
    exact hfull hn
  · rw [if_neg hn] at hzero
    exact absurd hzero hn

theorem bmapFrom_full (h : s.Owned) (hat : s.At (fun _ => true) i π here) (hks : ks ≠ [])
    (hpath : ∀ l l', ks = l ++ l' → l ≠ [] → IsPath (π ++ l))
    (hzero : (s.bmapFrom true (fun _ => true) i here ks).1 = 0) :
    (s.bmapFrom true (fun _ => true) i here ks).2.Full := by
  induction ks generalizing s π here with
  | nil => exact absurd rfl hks
  | cons k ks ih =>
    have hplace : IsPath (π ++ [k]) := hpath [k] ks rfl (by simp)
    have hentry : (s.entry true i here k).1 = 0 → (s.entry true i here k).2.Full := entry_full h
    by_cases hlast : ks = []
    · subst hlast
      exact hentry hzero
    rw [bmapFrom_cons hlast] at hzero ⊢
    by_cases hv : (s.entry true i here k).1 = 0
    · rw [if_pos (.inl hv)]
      exact hentry hv
    · have hgoes : ¬ ((s.entry true i here k).1 = 0 ∨ true = false) := by simp [hv]
      rw [if_neg hgoes] at hzero ⊢
      refine ih (entry_spec h hat hplace).1.owned (hat.next h hplace hv rfl) hlast
        (fun l l' heq hl => ?_) hzero
      rw [List.append_assoc]
      exact hpath (k :: l) l' (by rw [heq]; rfl) (by simp)

/-- With blocks that can all be read, `create_block` fails for want of a free zone only. -/
theorem createBlock_full (h : s.Owned)
    (hc : s.createBlock (fun _ => true) i b = some (0, s')) : s'.Full := by
  rw [createBlock] at hc
  split at hc
  case isFalse => cases hc
  case isTrue hb =>
    have heq := Option.some.inj hc
    have hpath := isPath_path hb
    have hfull := bmapFrom_full (π := []) h (.inl ⟨rfl, rfl⟩) hpath.ne_nil
      (fun l l' happ hl => IsPath.left (happ ▸ hpath) hl) (congrArg Prod.fst heq)
    rwa [heq] at hfull

/-! ### What is stored in a new block -/

/-- Walks do not read the block of a file. -/
theorem walk_leaf (h : s.Owned) (hb : b < maxBlock) {f : ℕ → ℕ} (hks : IsPath ks) :
    ({ s with data := update s.data (s.named i (path b)) f } : Zones).walk ok i' none ks =
      s.walk ok i' none ks := by
  induction ks using List.reverseRecOn with
  | nil => exact absurd rfl hks.ne_nil
  | append_singleton ρ l ih =>
    by_cases hρ : ρ = []
    · subst hρ
      rfl
    · rw [walk_snoc hρ, walk_snoc hρ, ih (hks.init hρ)]
      split
      case isTrue => rfl
      case isFalse hv =>
        rw [not_or] at hv
        refine congrFun (Function.update_of_ne ?_ _ _) l
        intro heq
        rw [walk_eq_named hρ hv.1] at heq hv
        obtain ⟨-, rfl⟩ := h.distinct i' i ρ _ (hks.init hρ) (isPath_path hb) hv.1 heq
        exact not_isPath_below b l hks

/-- The places may be filled in another way that leads to the same blocks. -/
theorem Fills.congr {P : ℕ → List ℕ → Prop} (h : Fills s s₁ P)
    (hwalk : ∀ ok i ks, IsPath ks → s'.walk ok i none ks = s₁.walk ok i none ks)
    (hzmap : s'.zmap = s₁.zmap) (hfirst : s'.firstDataZone = s₁.firstDataZone)
    (hlast : s'.nZones = s₁.nZones) : Fills s s' P := by
  have hnamed : ∀ {i ks}, IsPath ks → s'.named i ks = s₁.named i ks := fun hks => hwalk _ _ _ hks
  have hbit : ∀ m j, s'.Bit m j ↔ s₁.Bit m j := fun m j => by rw [Bit, Bit, hzmap]
  refine ⟨⟨fun i ks hks hne => ?_, fun i ks hks hne => ?_, fun i i' ks ks' hks hks' hne heq => ?_,
    fun bits hbits => ?_⟩, hfirst.trans h.firstDataZone, hlast.trans h.nZones,
    fun m j hb => (hbit m j).mpr (h.bits m j hb),
    fun m j hclear hset => h.fresh m j hclear ((hbit m j).mp hset), fun i ks hks hne => ?_,
    fun ok i ks hks hP => ?_⟩
  · rw [hnamed hks] at hne ⊢
    rw [hfirst, hlast]
    exact h.owned.inZone i ks hks hne
  · rw [hnamed hks] at hne ⊢
    rw [Marked, hfirst, hbit]
    exact h.owned.marked i ks hks hne
  · rw [hnamed hks] at hne heq
    rw [hnamed hks'] at heq
    exact h.owned.distinct i i' ks ks' hks hks' hne heq
  · rw [hzmap] at hbits
    exact h.owned.first bits hbits
  · rw [hnamed hks]
    exact h.keeps i ks hks hne
  · rw [hwalk ok i ks hks]
    exact h.frame ok i ks hks hP

/-- A new block of an inode of `N` is written. -/
theorem Grows.store (h : Grows D N s s') (hi : N i) (hb : b < maxBlock)
    (hold : s.named i (path b) = 0) (hnew : s'.named i (path b) ≠ 0) (f : ℕ → ℕ) :
    Grows D N s { s' with data := update s'.data (s'.named i (path b)) f } := by
  have howned := h.fills.owned
  have hnamed : ∀ {i' ks'}, IsPath ks' →
      ({ s' with data := update s'.data (s'.named i (path b)) f } : Zones).named i' ks' =
        s'.named i' ks' := fun hks' => walk_leaf howned hb hks'
  have hmine : ∀ i' b', b' < maxBlock → s'.named i' (path b') = s'.named i (path b) →
      i' = i ∧ path b' = path b := fun i' b' hb' heq =>
    howned.distinct i' i _ _ (isPath_path hb') (isPath_path hb) (heq ▸ hnew) heq
  refine ⟨h.fills.congr (fun ok i' ks' hks' => walk_leaf howned hb hks') rfl rfl rfl,
    fun n hfirst hlast hm => ?_, fun i' ks' hks' hne => ?_, fun i' b' hb' hne => ?_,
    fun i' b' hb' hi' hz hne w => ?_⟩
  · refine (h.blocks n hfirst hlast hm).imp_right ?_
    rintro ⟨i', ks', hi', hks', hn⟩
    exact ⟨i', ks', hi', hks', (hnamed hks').trans hn⟩
  · rw [hnamed hks'] at hne ⊢
    exact h.fresh i' ks' hks' hne
  · refine (Function.update_of_ne (fun heq => ?_) _ _).trans (h.data i' b' hb' hne)
    have hkeeps := h.fills.keeps i' _ (isPath_path hb') hne
    obtain ⟨rfl, hpath⟩ := hmine i' b' hb' (hkeeps.trans heq)
    rw [hpath] at hne
    exact hne hold
  · rw [hnamed (isPath_path hb')] at hne ⊢
    refine (congrFun (Function.update_of_ne (fun heq => ?_) _ _) w).trans
      (h.zero i' b' hb' hi' hz hne w)
    obtain ⟨rfl, -⟩ := hmine i' b' hb' heq
    exact hi' hi

/-! ### Blocks that can be read, and blocks that are written -/

/-- Walks over blocks that can be read lead where the tree does. -/
theorem walk_readable (h : ∀ ks, IsPath ks → s.named i ks ≠ 0 → ok (s.named i ks) = true)
    (hks : IsPath ks) : s.walk ok i none ks = s.named i ks := by
  induction ks using List.reverseRecOn with
  | nil => exact absurd rfl hks.ne_nil
  | append_singleton π k ih =>
    by_cases hπ : π = []
    · subst hπ
      rfl
    rw [walk_snoc_named hπ, ih (hks.init hπ)]
    split
    case isFalse => rfl
    case isTrue hv =>
      have hzero : s.named i π = 0 := by
        by_contra hne
        have hread := h π (hks.init hπ) hne
        rcases hv with hv | hv
        · exact hne hv
        · rw [hread] at hv
          cases hv
      rw [named_snoc hπ, if_pos hzero]

theorem bmap_readable (h : ∀ ks, IsPath ks → s.named i ks ≠ 0 → ok (s.named i ks) = true)
    (hb : b < maxBlock) : (s.bmap ok i b).getD 0 = s.named i (path b) := by
  rw [bmap, if_pos hb, bmapFrom_false, Option.getD_some, walk_readable h (isPath_path hb)]

/-- The block of a file is written. -/
def store (s : Zones) (n : ℕ) (f : ℕ → ℕ) : Zones := { s with data := update s.data n f }

theorem store_data_self (s : Zones) (n : ℕ) (f : ℕ → ℕ) : (s.store n f).data n = f :=
  Function.update_self _ _ _

theorem store_data_ne (s : Zones) {m n : ℕ} (f : ℕ → ℕ) (h : m ≠ n) :
    (s.store n f).data m = s.data m := Function.update_of_ne h _ _

theorem named_store (h : s.Owned) (hb : b < maxBlock) {f : ℕ → ℕ} (hks : IsPath ks) :
    (s.store (s.named i (path b)) f).named i' ks = s.named i' ks := walk_leaf h hb hks

theorem Owned.store (h : s.Owned) (hb : b < maxBlock) (f : ℕ → ℕ) :
    (s.store (s.named i (path b)) f).Owned :=
  ((Fills.refl (P := fun _ _ => True) h).congr (fun _ _ _ hks => walk_leaf h hb hks)
    rfl rfl rfl).owned

/-! ### What is given back -/

/-- The zones of an inode are cleared. -/
def clearZones (s : Zones) (i : ℕ) : Zones := { s with zone := update s.zone i fun _ => 0 }

/-- The same, with the bit of block `n`, if it is one. -/
def forget (s : Zones) (i n : ℕ) : Zones :=
  (if n = 0 then s else s.clearBit (s.place n).1 (s.place n).2).clearZones i

/-- The blocks that the inodes of `D` do not name are as they were, and so are the blocks of the
files, but for those of the inodes of `N`. -/
structure Kept (D N : ℕ → Prop) (s s' : Zones) : Prop where
  firstDataZone : s'.firstDataZone = s.firstDataZone
  nZones : s'.nZones = s.nZones
  blocks : ∀ n, s.firstDataZone ≤ n → n < s.nZones →
    ((s'.Marked n ∧ ∀ i ks, D i → IsPath ks → s'.named i ks ≠ n) ↔
      s.Marked n ∧ ∀ i ks, D i → IsPath ks → s.named i ks ≠ n)
  data : ∀ i b, b < maxBlock → ¬ N i → s.named i (path b) ≠ 0 →
    s'.named i (path b) = s.named i (path b) ∧
      s'.data (s.named i (path b)) = s.data (s.named i (path b))
  zero : ∀ i b, b < maxBlock → ¬ N i → s.named i (path b) = 0 → s'.named i (path b) ≠ 0 →
    ∀ w, s'.data (s'.named i (path b)) w = 0

theorem Kept.refl (D N : ℕ → Prop) (s : Zones) : Kept D N s s where
  firstDataZone := rfl
  nZones := rfl
  blocks _ _ _ := Iff.rfl
  data _ _ _ _ _ := ⟨rfl, rfl⟩
  zero _ _ _ _ hz hne := absurd hz hne

theorem named_clearZones (hi : i' ≠ i) : (s.clearZones i).named i' ks = s.named i' ks :=
  walk_congr (Function.update_of_ne hi _ _) rfl

theorem named_clearZones_self (hks : ks ≠ []) : (s.clearZones i).named i ks = 0 := by
  induction ks using List.reverseRecOn with
  | nil => exact absurd rfl hks
  | append_singleton ρ k ih =>
    by_cases hρ : ρ = []
    · subst hρ
      show update s.zone i (fun _ => 0) i k = 0
      rw [Function.update_self]
    · rw [named_snoc hρ, ih hρ, if_pos rfl]

/-- An inode whose zones are cleared names nothing. -/
theorem Owned.clearZones (h : s.Owned) (i : ℕ) : (s.clearZones i).Owned := by
  have hother : ∀ {i' ks'}, IsPath ks' → (s.clearZones i).named i' ks' ≠ 0 →
      (s.clearZones i).named i' ks' = s.named i' ks' := by
    intro i' ks' hks' hne
    by_cases hi : i' = i
    · subst hi
      exact absurd (named_clearZones_self hks'.ne_nil) hne
    · exact named_clearZones hi
  refine ⟨fun i' ks' hks' hne => ?_, fun i' ks' hks' hne => ?_,
    fun i' i'' ks' ks'' hks' hks'' hne heq => ?_, h.first⟩
  · have hsame := hother hks' hne
    rw [hsame] at hne ⊢
    exact h.inZone i' ks' hks' hne
  · have hsame := hother hks' hne
    rw [hsame] at hne ⊢
    exact h.marked i' ks' hks' hne
  · have hsame' := hother hks' hne
    have hsame'' := hother hks'' (heq ▸ hne)
    rw [hsame'] at hne
    exact h.distinct i' i'' ks' ks'' hks' hks'' hne (hsame'.symm.trans (heq.trans hsame''))

/-- An inode with nothing but a first block. -/
theorem named_first (h : ∀ k < 9, k ≠ 0 → s.zone i k = 0) (hks : IsPath ks)
    (hne : s.named i ks ≠ 0) : ks = [0] := by
  rcases hks with ⟨k, hk, rfl⟩ | ⟨k, -, rfl | rfl⟩ | ⟨k, l, -, -, rfl⟩
  · by_contra hcon
    exact hne (h k hk fun hk => hcon (by rw [hk]))
  · exact absurd (by simp [named, walk, value, h 7]) hne
  · exact absurd (by simp [named, walk, value, h 8]) hne
  · exact absurd (by simp [named, walk, value, h 8]) hne

theorem marked_clearBit (hm : s.firstDataZone ≤ m) (hn : s.firstDataZone ≤ n) :
    (s.clearBit (s.place n).1 (s.place n).2).Marked m ↔ s.Marked m ∧ m ≠ n := by
  have hpos := s.firstDataZone_pos
  rw [Marked, clearBit_bit]
  refine and_congr Iff.rfl (not_congr ?_)
  show s.place n = s.place m ↔ m = n
  rw [place, place, Prod.mk.injEq]
  simp only [bitsPerBlock]
  omega

theorem Grows.kept (h : Grows D N s s') : Kept D N s s' where
  firstDataZone := h.fills.firstDataZone
  nZones := h.fills.nZones
  blocks n hfirst hlast := by
    have hpos := s.firstDataZone_pos
    constructor
    · rintro ⟨hm, hn⟩
      refine ⟨(h.blocks n hfirst hlast hm).resolve_right ?_, fun i ks hi hks heq => ?_⟩
      · rintro ⟨i, ks, hi, hks, heq⟩
        exact hn i ks hi hks heq
      · exact hn i ks hi hks ((h.fills.keeps i ks hks (by omega)).trans heq)
    · rintro ⟨hm, hn⟩
      refine ⟨h.fills.marked hm, fun i ks hi hks heq => ?_⟩
      exact h.fresh i ks hks (fun hsame => hn i ks hi hks (hsame.symm.trans heq)) (heq ▸ hm)
  data i b hb _ hne := ⟨h.fills.keeps i _ (isPath_path hb) hne, h.data i b hb hne⟩
  zero := h.zero

/-- Inode `i` is given back with the one block that it names; the blocks that have been taken
for the inodes of `D` stay. -/
theorem Grows.forget (h : Grows D' N (s.clearZones i) s₁) (hD' : ∀ i', D' i' → D i' ∨ i' = i)
    (hi : ¬ D i) (hN : N i) (hempty : ∀ k < 9, k ≠ 0 → s₁.zone i k = 0) :
    Kept D N s (s₁.forget i (s₁.zone i 0)) := by
  set n₀ := s₁.zone i 0 with hn₀
  have hfirst₀ : n₀ ≠ 0 → s.firstDataZone ≤ n₀ ∧ n₀ < s.nZones := by
    intro hne
    have hzone := h.fills.owned.inZone i [0] (.inl ⟨0, by decide, rfl⟩) hne
    rw [h.fills.firstDataZone, h.fills.nZones] at hzone
    exact hzone
  have hname : ∀ {i' ks}, i' ≠ i → (s₁.forget i n₀).named i' ks = s₁.named i' ks := by
    intro i' ks hi'
    rw [Zones.forget, named_clearZones hi']
    split
    case isTrue => rfl
    case isFalse => exact walk_congr rfl rfl
  have hdata : (s₁.forget i n₀).data = s₁.data := by
    rw [Zones.forget]
    split <;> rfl
  have hne_of : ∀ {i'}, D i' → i' ≠ i := fun hi' heq => hi (heq ▸ hi')
  have hmark : ∀ n, s.firstDataZone ≤ n → n < s.nZones →
      ((s₁.forget i n₀).Marked n ↔ s₁.Marked n ∧ n ≠ n₀) := by
    intro n hfirst hlast
    have hpos := s.firstDataZone_pos
    rw [Zones.forget]
    split
    case isTrue hz => exact (and_iff_left (by omega)).symm
    case isFalse hz =>
      refine marked_clearBit (s := s₁) ?_ ?_
      · rw [h.fills.firstDataZone]
        exact hfirst
      · rw [h.fills.firstDataZone]
        exact (hfirst₀ hz).1
  refine ⟨?_, ?_, fun n hfirst hlast => ?_, fun i' b hb hi' hne => ?_,
    fun i' b hb hi' hz hne w => ?_⟩
  · rw [Zones.forget]
    split <;> exact h.fills.firstDataZone
  · rw [Zones.forget]
    split <;> exact h.fills.nZones
  · have hpos := s.firstDataZone_pos
    rw [hmark n hfirst hlast]
    constructor
    · rintro ⟨⟨hm, hn⟩, hnamed⟩
      constructor
      · -- a block that was taken is named by an inode of `D`, or is the first one of `i`
        rcases h.blocks n hfirst hlast hm with hm | ⟨i', ks, hi', hks, heq⟩
        · exact hm
        · rcases hD' i' hi' with hi' | rfl
          · exact absurd ((hname (hne_of hi')).trans heq) (hnamed i' ks hi' hks)
          · obtain rfl := named_first hempty hks (by omega)
            exact absurd heq.symm hn
      · intro i' ks hi' hks heq
        rw [← named_clearZones (hne_of hi')] at heq
        have hkeeps := h.fills.keeps i' ks hks (by omega)
        exact hnamed i' ks hi' hks ((hname (hne_of hi')).trans (hkeeps.trans heq))
    · rintro ⟨hm, hnamed⟩
      refine ⟨⟨h.fills.marked hm, fun heq => ?_⟩, fun i' ks hi' hks heq => ?_⟩
      · have hpath : IsPath [0] := .inl ⟨0, by decide, rfl⟩
        refine h.fresh i [0] hpath ?_ (show s.Marked n₀ from heq ▸ hm)
        rw [named_clearZones_self (by simp)]
        show n₀ ≠ 0
        omega
      · rw [hname (hne_of hi')] at heq
        refine h.fresh i' ks hks (fun hsame => ?_) (heq ▸ hm)
        rw [named_clearZones (hne_of hi')] at hsame
        exact hnamed i' ks hi' hks (hsame.symm.trans heq)
  · have hne_i : i' ≠ i := fun heq => hi' (heq ▸ hN)
    rw [← named_clearZones hne_i] at hne
    have hkept := h.data i' b hb hne
    have hkeeps := h.fills.keeps i' _ (isPath_path hb) hne
    rw [named_clearZones hne_i] at hkept hkeeps
    rw [hname hne_i, hdata]
    exact ⟨hkeeps, hkept⟩
  · have hne_i : i' ≠ i := fun heq => hi' (heq ▸ hN)
    rw [← named_clearZones hne_i] at hz
    rw [hname hne_i] at hne ⊢
    rw [hdata]
    exact h.zero i' b hb hi' hz hne w

end Zones

/-! ### The truncation of a new inode -/

namespace Truncation

variable {t t' : Truncation} {p : Round} {q : ℕ → Round} {i k m n mode : ℕ} {busy : Bool}
  {free : ℕ → Truncation → Option (Bool × Truncation)} {here : Option ℕ}

/-- There is nothing to free. -/
theorem freePlaces_zero (h : ∀ j, k ≤ j → j < k + m → t.zones.value i here j = 0) :
    freePlaces free i here m k busy t = some (busy, t) := by
  induction m generalizing k with
  | zero => rfl
  | succ m ih =>
    rw [freePlaces, if_pos (h k le_rfl (by omega))]
    exact ih fun j hle hlt => h j (by omega) (by omega)

theorem freeBlock_cases (p : Round) (n : ℕ) (t : Truncation) : freeBlock p n t = none ∨
    freeBlock p n t = some (false, t) ∨ freeBlock p n t = some (true, t.release n) := by
  rw [freeBlock]
  split_ifs
  · exact .inl rfl
  · exact .inr (.inl rfl)
  · exact .inr (.inr rfl)
  · exact .inl rfl

/-- There is nothing behind the first block. -/
theorem freePlaces_behind (h : ∀ k < 9, k ≠ 0 → t.zones.zone i k = 0) (p : Round) (busy : Bool) :
    freePlaces (freeBlock p) i none 6 (0 + 1) busy t = some (busy, t) ∧
      freeZone (freeInd p i) i 7 busy t = some (busy, t) ∧
      freeZone (freeDind p i) i 8 busy t = some (busy, t) := by
  have hzero : ∀ {free : ℕ → Truncation → Option (Bool × Truncation)} {m k}, 0 < k → k + m ≤ 9 →
      freePlaces free i none m k busy t = some (busy, t) := fun hk hm =>
    freePlaces_zero (t := t) fun j hle hlt => h j (by omega) (by omega)
  refine ⟨hzero (by decide) (by decide), ?_, ?_⟩
  · rw [freeZone_eq (freeInd_zero p i)]
    exact hzero (by decide) (by decide)
  · rw [freeZone_eq (freeDind_zero p i)]
    exact hzero (by decide) (by decide)

/-- A round for an inode with nothing but a first block: the block is busy, or it is freed. -/
theorem freeRound_first (h : ∀ k < 9, k ≠ 0 → t.zones.zone i k = 0)
    (hr : freeRound p i t = some (busy, t')) :
    if busy then t'.zones = t.zones
    else t'.zones.clearZones i = t.zones.forget i (t.zones.zone i 0) := by
  rw [freeRound, freePlaces, show t.zones.value i none 0 = t.zones.zone i 0 from rfl] at hr
  by_cases hn : t.zones.zone i 0 = 0
  · obtain ⟨h₁, h₇, h₈⟩ := freePlaces_behind h p false
    simp only [if_pos hn, h₁, h₇, h₈, Option.map_some] at hr
    obtain ⟨rfl, rfl⟩ := Prod.mk.inj (Option.some.inj hr)
    rw [if_neg Bool.false_ne_true, hn, Zones.forget, if_pos rfl]
  · rw [if_neg hn] at hr
    rcases freeBlock_cases p (t.zones.zone i 0) t with hfree | hfree | hfree
    · rw [hfree] at hr
      cases hr
    · obtain ⟨h₁, h₇, h₈⟩ := freePlaces_behind h p true
      simp only [hfree, h₁, h₇, h₈, Option.map_some] at hr
      obtain ⟨rfl, rfl⟩ := Prod.mk.inj (Option.some.inj hr)
      rw [if_pos rfl]
    · have hrest : ∀ k < 9, k ≠ 0 → ((t.release (t.zones.zone i 0)).clearPlace i none 0).zones.zone
          i k = 0 := by
        intro k hk hk₀
        simp only [clearPlace, release, Zones.setValue, Function.update_self,
          Function.update_of_ne hk₀]
        exact h k hk hk₀
      obtain ⟨h₁, h₇, h₈⟩ := freePlaces_behind hrest p false
      simp only [hfree, h₁, h₇, h₈, Option.map_some] at hr
      obtain ⟨rfl, rfl⟩ := Prod.mk.inj (Option.some.inj hr)
      rw [if_neg Bool.false_ne_true, Zones.forget, if_neg hn, Zones.clearZones, Zones.clearZones]
      simp only [clearPlace, release, Zones.setValue, Function.update_idem]

/-- A truncation that ends has freed the first block, if there is one. -/
theorem truncate_first (h : ∀ k < 9, k ≠ 0 → t.zones.zone i k = 0)
    (hmode : t.zones.zone i 0 = 0 ∨ hasBlocks mode = true)
    (hr : truncate q i mode t n = some (busy, t')) :
    if busy then t'.zones = t.zones
    else t'.zones.clearZones i = t.zones.forget i (t.zones.zone i 0) := by
  induction n generalizing busy t' with
  | zero =>
    obtain ⟨rfl, rfl⟩ := Prod.mk.inj (Option.some.inj hr)
    split
    case isTrue => rfl
    case isFalse hb =>
      rw [hmode.resolve_right hb, Zones.forget, if_pos rfl]
  | succ n ih =>
    rw [truncate] at hr
    cases hprev : truncate q i mode t n with
    | none =>
      rw [hprev] at hr
      cases hr
    | some r =>
      obtain ⟨busy₁, t₁⟩ := r
      have hsame := ih hprev
      rw [hprev] at hr
      cases busy₁ with
      | false =>
        obtain ⟨rfl, rfl⟩ := Prod.mk.inj (Option.some.inj hr)
        exact hsame
      | true =>
        rw [if_pos rfl] at hsame
        dsimp only at hr
        cases hround : freeRound (q n) i t₁ with
        | none =>
          rw [hround] at hr
          cases hr
        | some r =>
          obtain ⟨busy₂, t₂⟩ := r
          have hfirst := freeRound_first (by rwa [hsame]) hround
          rw [hsame] at hfirst
          rw [hround] at hr
          cases busy₂ <;> obtain ⟨rfl, rfl⟩ := Prod.mk.inj (Option.some.inj hr) <;> exact hfirst

end Truncation

end Fs
