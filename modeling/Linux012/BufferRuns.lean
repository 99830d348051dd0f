/-
Runs of the calls that use buffers (CleanBuffers.lean).

* `Good` — the cache is in order, who holds a buffer is counted, and a call that writes a
  whole block has a device with a driver;
* `Good.step`, `step_ends` — a careful step keeps this, and ends;
* `dirty_cleanable` — in all careful runs, `sync_dev` cleans every buffer of its device, the
  loop of `getblk` ends, and `blk_size` is read below `NR_BLK_DEV` only;
* `dirty_stays` — a block written to a device that has no driver.
-/
import Linux012.SyncDev

namespace Fs.Cleaning

open Function (update)

/-- A call that writes a whole block has a device with a driver. -/
def BlockCall.Sound (m : Machine) (c : BlockCall) : Prop :=
  m.served c.dev = false → c.write = true → c.offset ≠ 0 ∨ c.count < blockSize

theorem BlockCall.Sound.served {m : Machine} {c : BlockCall} (h : c.Sound m)
    (hw : c.whole = true) : m.served c.dev = true := by
  rw [whole, Bool.and_eq_true, beq_iff_eq, chars] at hw
  by_contra hc
  have hpart := h (by simpa using hc) hw.1
  have hall := hw.2
  simp only [blockSize] at hpart hall
  omega

/-- What a call relies on. -/
def Use.Fine (m : Machine) (s : Cache) : Use → Prop
  | .idle | .reading _ => True
  | .got b => m.served (s.head b).dev = true
  | .loop c => c.Sound m
  | .ahead c b _ => c.Sound m ∧ (s.head b).dev = c.dev
  | .copying c b => m.served c.dev = true ∧ (s.head b).dev = c.dev

/-- The cache is in order, and who holds a buffer is counted. -/
structure Good (m : Machine) {U : Type} (s : State U) : Prop where
  inv : s.cache.Inv m
  count : ∀ b, (s.cache.head b).count = Counting.count fun u => (s.use u).buffer = some b
  fine : ∀ u, (s.use u).Fine m s.cache

namespace Good

open Cache

variable {U : Type} [Fintype U] [DecidableEq U] {m : Machine} {s s' : State U} {u : U}
  {cache : Cache} {use : Use} {b dev fuel : ℕ} {block : ℤ}

omit [DecidableEq U] in
theorem pos (h : Good m s) (hu : (s.use u).buffer = some b) : (s.cache.head b).count ≠ 0 := by
  rw [h.count]
  have := Counting.count_pos_of (P := fun u => (s.use u).buffer = some b) hu
  omega

omit [DecidableEq U] in
/-- What a call relies on stays while its buffer stays for its device. -/
theorem fine_of (h : Good m s)
    (hdev : ∀ b, (s.cache.head b).count ≠ 0 → (cache.head b).dev = (s.cache.head b).dev)
    (u : U) : (s.use u).Fine m cache := by
  have hf := h.fine u
  cases hu : s.use u with
  | idle => trivial
  | reading b => trivial
  | loop c =>
    rw [hu] at hf
    exact hf
  | got b =>
    rw [hu] at hf
    show m.served (cache.head b).dev = true
    rw [hdev b (h.pos (by rw [hu]; rfl))]
    exact hf
  | ahead c b l =>
    rw [hu] at hf
    refine ⟨hf.1, ?_⟩
    rw [hdev b (h.pos (by rw [hu]; rfl))]
    exact hf.2
  | copying c b =>
    rw [hu] at hf
    refine ⟨hf.1, ?_⟩
    rw [hdev b (h.pos (by rw [hu]; rfl))]
    exact hf.2

omit [DecidableEq U] in
theorem keeps (h : Good m s) (hk : Keeps m s.cache cache) : Good m { s with cache } where
  inv := hk.inv
  count b := (hk.count b).trans (h.count b)
  fine := h.fine_of hk.dev

/-- One call goes on, and its buffer is counted. -/
theorem set (h : Good m s) (hi : Inv m cache)
    (hcount : ∀ b, (cache.head b).count + (if (s.use u).buffer = some b then 1 else 0) =
      (s.cache.head b).count + (if use.buffer = some b then 1 else 0))
    (hdev : ∀ b, (s.cache.head b).count ≠ 0 → (cache.head b).dev = (s.cache.head b).dev)
    (hfine : use.Fine m cache) : Good m (s.set u cache use) where
  inv := hi
  count b := by
    have hc := Counting.count_add_of_iff_off (P := fun x => (s.use x).buffer = some b)
      (Q := fun x => (update s.use u use x).buffer = some b) u fun x hx => by
        rw [Function.update_of_ne hx]
    simp only [Function.update_self] at hc
    have hb := hcount b
    rw [h.count b] at hb
    show (cache.head b).count = Counting.count fun x => (update s.use u use x).buffer = some b
    omega
  fine x := by
    show (update s.use u use x).Fine m cache
    by_cases hx : x = u
    · rw [hx, Function.update_self]
      exact hfine
    · rw [Function.update_of_ne hx]
      exact h.fine_of hdev x

/-- The call goes on with the buffer it has. -/
theorem stay (h : Good m s) (hk : Keeps m s.cache cache)
    (hb : use.buffer = (s.use u).buffer) (hfine : use.Fine m cache) :
    Good m (s.set u cache use) :=
  h.set hk.inv (fun b => by rw [hk.count, hb]) hk.dev hfine

/-- The call gets a buffer. -/
theorem get (h : Good m s) (hg : Gets m s.cache cache b dev block)
    (hu : (s.use u).buffer = none) (hb : use.buffer = some b) (hfine : use.Fine m cache) :
    Good m (s.set u cache use) := by
  refine h.set hg.inv (fun x => ?_) hg.dev hfine
  rw [hu, hb, if_neg nofun]
  by_cases hx : b = x
  · rw [if_pos (congrArg some hx), ← hx, hg.count_self]
  · rw [if_neg fun he => hx (Option.some.inj he), hg.count_ne x (Ne.symm hx)]

/-- The call gives its buffer back. -/
theorem put {cache' : Cache} (h : Good m s) (hk : Keeps m s.cache cache')
    (hu : (s.use u).buffer = some b) (hr : cache'.brelse m b = .ok cache)
    (hb : use.buffer = none) (hfine : use.Fine m cache) : Good m (s.set u cache use) := by
  have hw := (waitOnBuffer_mild (m := m) cache' b).keeps hk.inv
  have hk' := hk.trans hw
  have heq := brelse_ok hr
  have hpos := h.pos hu
  have hhead : ∀ x, x ≠ b → cache.head x = (cache'.waitOnBuffer m b).head x := by
    intro x hx
    rw [heq, setCount, setHead_head_ne _ _ hx]
  have hself : (cache.head b).count = (s.cache.head b).count - 1 ∧
      (cache.head b).dev = ((cache'.waitOnBuffer m b).head b).dev := by
    rw [heq, setCount, setHead_head_self]
    exact ⟨congrArg (· - 1) (hk'.count b), rfl⟩
  refine h.set (heq ▸ setCount_inv hk'.inv _ _) (fun x => ?_) (fun x hx => ?_) hfine
  · rw [hu, hb]
    by_cases hx : b = x
    · rw [if_pos (congrArg some hx), if_neg (Option.some_ne_none x).symm, ← hx, hself.1]
      omega
    · rw [if_neg fun he => hx (Option.some.inj he), if_neg (Option.some_ne_none x).symm,
        hhead x (Ne.symm hx), hk'.count]
  · by_cases hxb : x = b
    · rw [hxb, hself.2]
      exact hk'.dev b hpos
    · rw [hhead x hxb]
      exact hk'.dev x hx

theorem goLoop (h : Good m s) {c : BlockCall} (hu : s.use u = .loop c)
    (hs : s.goLoop m fuel u c = .ok s') : Good m s' := by
  have hc : c.Sound m := by
    have := h.fine u
    rwa [hu] at this
  have hnone : (s.use u).buffer = none := by rw [hu]; rfl
  rw [State.goLoop] at hs
  split at hs
  case isFalse =>
    cases hs
    exact h.stay (.refl h.inv) hnone.symm trivial
  obtain ⟨⟨b, cache⟩, h₁, h₂⟩ := Except.ok_of_bind hs
  have hg := getblk_gets (syncDev_keeps m fuel) h.inv h₁
  dsimp only at h₂
  split at h₂
  case isTrue hw =>
    cases h₂
    exact h.get hg hnone rfl ⟨hc.served hw, hg.got.1⟩
  split at h₂
  · cases h₂
    exact h.get hg hnone rfl ⟨hc, hg.got.1⟩
  · cases h₂
    have hg' := hg.mild (llRwBlock_mild cache .read b)
    exact h.get hg' hnone rfl ⟨hc, hg'.got.1⟩

/-- `bread` and `breada` after their reads. -/
theorem breadWait (h : Good m s) (hu : (s.use u).buffer = some b) {found : Bool} {got : Use}
    (hgot : got.buffer = some b)
    (hs : s.cache.breadWait m b = .ok (found, cache))
    (hfine : m.served (s.cache.head b).dev = true → (cache.head b).dev = (s.cache.head b).dev →
      got.Fine m cache) : Good m (s.set u cache (if found then got else .idle)) := by
  rw [Cache.breadWait] at hs
  have hw := waitOnBuffer_mild (m := m) s.cache b
  have hk := hw.keeps h.inv
  split at hs
  case isTrue hup =>
    cases hs
    have hlive := hk.inv.live b (.inr (.inr hup))
    rw [hw.dev] at hlive
    exact h.stay hk (hgot.trans hu.symm) (hfine hlive (hw.dev b))
  case isFalse =>
    obtain ⟨c, h₁, h₂⟩ := Except.ok_of_bind hs
    cases h₂
    exact h.put hk hu h₁ rfl trivial

theorem go (h : Good m s) (hs : s.go m fuel u = .ok s') : Good m s' := by
  have hf := h.fine u
  rw [State.go] at hs
  cases hu : s.use u with
  | idle =>
    rw [hu] at hs
    cases hs
    exact h
  | got b =>
    rw [hu] at hs
    cases hs
    exact h
  | reading b =>
    rw [hu] at hs
    obtain ⟨⟨found, cache⟩, h₁, h₂⟩ := Except.ok_of_bind hs
    cases h₂
    refine h.breadWait (by rw [hu]; rfl) rfl h₁ fun hserved hdev => ?_
    show m.served (cache.head b).dev = true
    rw [hdev]
    exact hserved
  | loop c =>
    rw [hu] at hs
    exact h.goLoop hu hs
  | ahead c b l =>
    rw [hu] at hs hf
    cases l with
    | nil =>
      obtain ⟨⟨found, cache⟩, h₁, h₂⟩ := Except.ok_of_bind hs
      cases h₂
      exact h.breadWait (by rw [hu]; rfl) rfl h₁ fun hserved hdev =>
        ⟨hf.2 ▸ hserved, hdev.trans hf.2⟩
    | cons block l =>
      obtain ⟨⟨tmp, cache⟩, h₁, h₂⟩ := Except.ok_of_bind hs
      have hg := getblk_gets (syncDev_keeps m fuel) h.inv h₁
      have hg' : Gets m s.cache (if (cache.head tmp).uptodate = true then cache
          else cache.llRwBlock m .readA tmp) tmp c.dev block := by
        split
        · exact hg
        · exact hg.mild (llRwBlock_mild cache .readA tmp)
      cases h₂
      have hk := hg'.release
      refine h.stay hk (by rw [hu]; rfl) ⟨hf.1, ?_⟩
      rw [hk.dev b (h.pos (by rw [hu]; rfl))]
      exact hf.2
  | copying c b =>
    rw [hu] at hs hf
    obtain ⟨cache, h₁, h₂⟩ := Except.ok_of_bind hs
    cases h₂
    have hk : Keeps m s.cache (if c.write = true then s.cache.setDirt b else s.cache) := by
      split
      · refine ⟨setDirt_inv h.inv (hf.2 ▸ hf.1), rfl, fun x => ?_, fun x _ => ?_⟩
        · rw [setDirt_head]
        · rw [setDirt_head]
      · exact .refl h.inv
    refine h.put hk (by rw [hu]; rfl) h₁ rfl fun hn => ?_
    rw [BlockCall.next, hf.1] at hn
    cases hn

theorem bread (h : Good m s) (hu : (s.use u).buffer = none)
    (hs : s.bread m fuel u dev block = .ok s') : Good m s' := by
  rw [State.bread] at hs
  obtain ⟨⟨b, cache⟩, h₁, h₂⟩ := Except.ok_of_bind hs
  have hg := getblk_gets (syncDev_keeps m fuel) h.inv h₁
  dsimp only at h₂
  split at h₂
  case isTrue hup =>
    cases h₂
    exact h.get hg hu rfl (hg.inv.live b (.inr (.inr hup)))
  case isFalse =>
    cases h₂
    exact h.get (hg.mild (llRwBlock_mild cache .read b)) hu rfl trivial

omit [DecidableEq U] in
theorem of_map (h : Good m s) {r : Except Stop Cache}
    (hk : ∀ cache, r = .ok cache → Keeps m s.cache cache)
    (hs : (r.map fun cache => ({ s with cache } : State U)) = .ok s') : Good m s' := by
  obtain ⟨cache, hr, rfl⟩ := ok_of_map hs
  exact h.keeps (hk cache hr)

omit [DecidableEq U] in
/-- The inodes and the mounted devices change. -/
theorem inodes (h : Good m s) (inode : ℕ → MInode) {super : ℕ → Option Maps}
    (hsuper : ∀ dev sb, super dev = some sb → m.served dev = true) :
    Good m { s with cache := { s.cache with inode, super } } :=
  ⟨⟨h.inv.live, hsuper, h.inv.free, h.inv.unique⟩, h.count, fun u => h.fine_of (fun _ _ => rfl) u⟩

/-- A careful step keeps the cache in order. -/
theorem step (h : Good m s) {e : Event U} (hc : Careful m s e)
    (hs : s.step m fuel e = .ok s') : Good m s' := by
  cases e with
  | bread u dev block =>
    rw [State.step] at hs
    split at hs
    case h_1 hu => exact h.bread (by rw [hu]; rfl) hs
    case h_2 =>
      cases hs
      exact h
  | modify u =>
    rw [State.step] at hs
    split at hs
    case h_1 b hu =>
      cases hs
      have hf := h.fine u
      rw [hu] at hf
      refine h.keeps ⟨setDirt_inv h.inv hf, rfl, fun x => ?_, fun x _ => ?_⟩
      · rw [setDirt_head]
      · rw [setDirt_head]
    case h_2 =>
      cases hs
      exact h
  | release u =>
    rw [State.step] at hs
    split at hs
    case h_1 b hu =>
      obtain ⟨cache, hr, rfl⟩ := ok_of_map hs
      exact h.put (.refl h.inv) (by rw [hu]; rfl) hr rfl trivial
    case h_2 =>
      cases hs
      exact h
  | blockIo u write dev pos count =>
    rw [State.step] at hs
    split at hs
    case h_1 hu =>
      obtain ⟨size, -, rfl⟩ := ok_of_map hs
      refine h.stay (.refl h.inv) (by rw [hu]; rfl) fun hn hw => ?_
      exact (hc.2 hn hw).imp_left fun hpos h0 => hpos (by
        have : 0 ≤ pos % 1024 := Int.emod_nonneg _ (by decide)
        have h0' : (pos % 1024).toNat = 0 := h0
        omega)
    case h_2 =>
      cases hs
      exact h
  | go u => exact h.go hs
  | newBlock dev block => exact h.of_map (fun _ hr => newBlock_keeps h.inv hr) hs
  | freeBlock dev block => exact h.of_map (fun _ hr => freeBlock_keeps h.inv hr) hs
  | mount u sb =>
    rw [State.step] at hs
    split at hs
    case h_1 b hu =>
      cases hs
      have hf := h.fine u
      rw [hu] at hf
      refine h.inodes _ fun dev sb' hsb => ?_
      by_cases hd : dev = (s.cache.head b).dev
      · rw [hd]
        exact hf
      · rw [Function.update_of_ne hd] at hsb
        exact h.inv.super dev sb' hsb
    case h_2 =>
      cases hs
      exact h
  | umount dev =>
    cases hs
    refine h.inodes _ fun d sb hsb => ?_
    by_cases hd : d = dev
    · rw [hd, Function.update_self] at hsb
      cases hsb
    · rw [Function.update_of_ne hd] at hsb
      exact h.inv.super d sb hsb
  | setInode i dev num pipe =>
    rw [State.step] at hs
    split at hs
    · cases hs
      exact h
    · cases hs
      exact h.inodes _ h.inv.super
  | touchInode i =>
    cases hs
    exact h.inodes _ h.inv.super
  | readInode i node => exact h.of_map (fun _ hr => readInode_keeps h.inv hr) hs
  | writeInode i => exact h.of_map (fun _ hr => writeInode_keeps h.inv hr) hs
  | syncDev dev => exact h.of_map (fun _ hr => syncDev_keeps m fuel _ _ _ h.inv hr) hs
  | sync => exact h.of_map (fun _ hr => sysSync_keeps h.inv hr) hs
  | diskChange dev =>
    cases hs
    have hi : Inv m ({ s.cache with super := update s.cache.super dev none }.invalidateInodes
        dev) := by
      refine ⟨h.inv.live, fun d sb hsb => ?_, h.inv.free, h.inv.unique⟩
      by_cases hd : d = dev
      · have hself : update s.cache.super dev none d = some sb := hsb
        rw [hd, Function.update_self] at hself
        cases hself
      · have hne : update s.cache.super dev none d = some sb := hsb
        rw [Function.update_of_ne hd] at hne
        exact h.inv.super d sb hne
    have hm := invalidateBuffers_mild (m := m) dev (List.range m.nrBuffers)
      ({ s.cache with super := update s.cache.super dev none }.invalidateInodes dev)
    exact ⟨hm.inv hi, fun b => (hm.count b).trans (h.count b),
      fun u => h.fine_of (fun b _ => hm.dev b) u⟩
  | irq b ok =>
    cases hs
    exact h.keeps ((endRequest_mild s.cache b ok).keeps h.inv)

theorem start (h : State.Start m s) : Good m s where
  inv := by
    refine ⟨fun b hb => ?_, fun dev sb hsb => ?_, h.free, fun b b' _ _ hd => ?_⟩
    · rw [h.head b] at hb
      simp at hb
    · rw [h.super dev] at hsb
      cases hsb
    · rw [h.head b] at hd
      exact absurd rfl hd
  count b := by
    rw [h.head b]
    refine (Counting.count_eq_zero_iff.mpr fun u hu => ?_).symm
    rw [h.use u] at hu
    cases hu
  fine u := by
    rw [h.use u]
    trivial

theorem reach (h : (kernel m U).Reach (Careful m) s) : Good m s :=
  h.invariant (fun _ => start) fun _ _ _ hg hc ⟨_, hs⟩ => hg.step hc hs

end Good

variable {U : Type} [Fintype U] [DecidableEq U] {m : Machine} {s : State U}

open Cache in
/-- A careful step ends: no loop goes on, no process waits for the inode that it has locked,
and `blk_size` is read in its bounds. -/
theorem Good.step_ends (h : Good m s) {e : Event U} {fuel : ℕ} (hfuel : 4 ≤ fuel)
    (hc : Careful m s e) : Ends (s.step m fuel e) := by
  have hfuel' : 2 ≤ fuel := by omega
  cases e with
  | bread u dev block =>
    rw [State.step]
    split
    · refine (getblk_ends h.inv hc hfuel).bind fun r _ => ?_
      dsimp only
      split
      · exact .ok _
      · exact .ok _
    · exact .ok s
  | modify u =>
    rw [State.step]
    split <;> exact .ok _
  | release u =>
    rw [State.step]
    split
    · exact (brelse_ends _ _).map
    · exact .ok s
  | blockIo u write dev pos count =>
    rw [State.step]
    split
    · exact (sizeOf_ends hc.1).map
    · exact .ok s
  | go u =>
    rw [State.step, State.go]
    rw [Careful] at hc
    cases hu : s.use u with
    | idle => exact .ok s
    | got b => exact .ok s
    | reading b => exact (breadWait_ends _ b).bind fun _ _ => .ok _
    | loop c =>
      rw [hu] at hc
      dsimp only
      rw [State.goLoop]
      split
      case isFalse => exact .ok _
      case isTrue hgo =>
        have hk := hc (c.dev, c.block) (by rw [Use.asks, if_pos hgo]; rfl)
        refine (getblk_ends h.inv hk hfuel).bind fun r _ => ?_
        dsimp only
        split
        · exact .ok _
        split
        · exact .ok _
        · exact .ok _
    | ahead c b l =>
      rw [hu] at hc
      cases l with
      | nil => exact (breadWait_ends _ b).bind fun _ _ => .ok _
      | cons block l =>
        exact (getblk_ends h.inv (hc (c.dev, block) rfl) hfuel).bind fun _ _ => .ok _
    | copying c b => exact (brelse_ends _ b).bind fun _ _ => .ok _
  | newBlock dev block => exact (newBlock_ends h.inv hc hfuel).map
  | freeBlock dev block => exact (freeBlock_ends _ dev block).map
  | mount u sb =>
    rw [State.step]
    split <;> exact .ok _
  | umount dev => exact .ok _
  | setInode i dev num pipe =>
    rw [State.step]
    split <;> exact .ok _
  | touchInode i => exact .ok _
  | readInode i node => exact (readInode_ends h.inv hfuel' hc.1 hc.2).map
  | writeInode i => exact (writeInode_ends h.inv hfuel' hc).map
  | syncDev dev => exact (syncDev_ends h.inv hc hfuel').map
  | sync => exact (sysSync_ends h.inv hc hfuel').map
  | diskChange dev => exact .ok _
  | irq b ok => exact .ok _

/-- **Dirty buffers can be cleaned**: in every state of a careful run, `sync_dev` leaves no
dirty buffer of its device, and it comes back, or panics, if there is room for the inodes;
`getblk` calls it twice at most; and what is done next reads `blk_size` below `NR_BLK_DEV`
and ends. -/
theorem dirty_cleanable (h : (kernel m U).Reach (Careful m) s) :
    (∀ fuel dev cache, s.cache.syncDev m fuel dev = .ok cache →
      ∀ b < m.nrBuffers, (cache.head b).dev = dev → (cache.head b).dirt = false) ∧
    (∀ fuel dev, 4 ≤ fuel → (s.cache.cleaned dev).Room m →
      s.cache.syncDev m fuel dev = .error .panic ∨
        ∃ cache, s.cache.syncDev m fuel dev = .ok cache) ∧
    (∀ fuel dev block, 4 ≤ fuel → s.cache.Clears m (dev, block) →
      Ends (s.cache.getblk m (Cache.syncDev m fuel) dev block fuel)) ∧
    ∀ fuel e, 4 ≤ fuel → Careful m s e → Ends (s.step m fuel e) := by
  have hg := Good.reach h
  refine ⟨fun fuel dev cache hs b hb hdev => Cache.syncDev_clean hg.inv hs hb hdev,
    fun fuel dev hf hr => ?_, fun fuel dev block hf hc => Cache.getblk_ends hg.inv hc hf,
    fun fuel e hf hc => hg.step_ends hf hc⟩
  obtain ⟨k, rfl⟩ := Nat.exists_eq_add_of_le' (show 2 ≤ fuel by omega)
  exact (Cache.syncDev_room k hg.inv hr).imp_right fun ⟨cache, hs, _⟩ => ⟨cache, hs⟩

/-! ### A device without a driver -/

namespace Cache

variable {s : Cache} {b dev fuel : ℕ} {block : ℤ}

theorem writeOut_unserved (hd : m.served dev = false) {l : List ℕ}
    (hl : ∀ b ∈ l, (s.head b).dev = dev → (s.head b).lock = false) :
    s.writeOut m (· == dev) l = s := by
  rw [writeOut_eq]
  induction l with
  | nil => rfl
  | cons b l ih =>
    have hone : s.writeOne m (· == dev) b = s := by
      rw [writeOne]
      split
      case isFalse => rfl
      case isTrue hb =>
        have hdev : (s.head b).dev = dev := beq_iff_eq.mp hb
        have hw : s.waitOnBuffer m b = s := by
          rw [waitOnBuffer, hl b List.mem_cons_self hdev]
          rfl
        have hrw : s.llRwBlock m .write b = s := by
          rw [llRwBlock, hdev, hd]
          rfl
        rw [hw]
        dsimp only
        rw [hrw, ite_self]
    rw [List.foldl_cons, hone, ih fun x hx => hl x (List.mem_cons_of_mem _ hx)]

/-- `sync_dev` does nothing for a device without a driver. -/
theorem syncDev_unserved (hd : m.served dev = false)
    (hl : ∀ b < m.nrBuffers, (s.head b).dev = dev → (s.head b).lock = false)
    (hi : ∀ i < nrInode, (s.inode i).dirt = false) : s.syncDev m fuel dev = .ok s := by
  have hinodes : ∀ l : List ℕ, (∀ i ∈ l, i < nrInode) → s.syncInodes m fuel l = .ok s := by
    intro l hlt
    induction l with
    | nil => rfl
    | cons i l ih =>
      rw [syncInodes, hi i (hlt i List.mem_cons_self)]
      exact ih fun j hj => hlt j (List.mem_cons_of_mem _ hj)
  have hout : s.writeOut m (· == dev) (List.range m.nrBuffers) = s :=
    writeOut_unserved hd fun b hb => hl b (List.mem_range.mp hb)
  rw [syncDev, hout]
  show (s.syncInodes m fuel _ >>= fun s => _) = _
  rw [hinodes _ fun i h => List.mem_range.mp h]
  exact congrArg Except.ok hout

/-- The process that chooses a dirty buffer of such a device goes round for ever. -/
theorem getblk_forever {k : ℕ} (hf : s.findBuffer m dev block = none)
    (hs : s.search none s.free = some b) (hb : (s.head b).dirt = true)
    (hd : m.served (s.head b).dev = false)
    (hlock : (s.head b).lock = false)
    (hl : ∀ x < m.nrBuffers, (s.head x).dev = (s.head b).dev → (s.head x).lock = false)
    (hi : ∀ i < nrInode, (s.inode i).dirt = false) :
    s.getblk m (syncDev m k) dev block fuel = .error .forever := by
  have hw : s.waitOnBuffer m b = s := by
    rw [waitOnBuffer, hlock]
    rfl
  have h0 := (search_some hs).2.1
  have hclean : ∀ fuel, clean m (syncDev m k) b fuel s = .error .forever := by
    intro fuel
    induction fuel with
    | zero => rfl
    | succ fuel ih =>
      rw [clean, if_pos hb, syncDev_unserved hd hl hi]
      show (if ((s.waitOnBuffer m b).head b).count ≠ 0 then _ else _) = _
      rw [hw, if_neg (not_not.mpr h0), ih]
  cases fuel with
  | zero => rfl
  | succ fuel =>
    rw [getblk, hf, hs]
    dsimp only
    rw [hw, if_neg (not_not.mpr h0), hclean]
    rfl

end Cache

/-- A cache of one buffer, with a hard disk. -/
def smallMachine : Machine where
  nrBuffers := 1
  driver major := major == 3
  blkSize _ := none
  ends _ := []
  ok _ := true
  full _ := false

def State.boot : State Unit where
  cache :=
    { head := fun _ => ⟨0, 0, false, false, false, 0⟩
      free := [0]
      inode := fun _ => ⟨0, 0, false, false⟩
      super := fun _ => none
      waits := 0 }
  use _ := .idle

theorem State.boot_start : State.Start smallMachine State.boot := by
  refine ⟨fun b => ?_, fun _ => rfl, fun _ => rfl, fun _ => rfl⟩
  show b ∈ [0] ↔ b < 1
  rw [List.mem_singleton]
  omega

/-- The step of the small machine. -/
def State.next (s : State Unit) (e : Event Unit) : Option (State Unit) :=
  (s.step smallMachine 4 e).toOption

theorem State.next_step (s : State Unit) (e : Event Unit) (s' : State Unit)
    (h : s.next e = some s') : (kernel smallMachine Unit).step s e s' := by
  refine ⟨4, ?_⟩
  rw [next] at h
  cases hs : s.step smallMachine 4 e with
  | error e =>
    rw [hs] at h
    cases h
  | ok s₁ =>
    rw [hs] at h
    rw [Option.some.inj h]

/-- A write of one block to the special file of device `dev`. -/
def writeWhole (dev : ℕ) : List (Event Unit) :=
  [.blockIo () true dev 0 blockSize, .go (), .go (), .go ()]

/-- A block that is written to the hard disk is dirty, and clean after `sync_dev`. -/
theorem dirty_cleanable_write : ∃ s, (kernel smallMachine Unit).Reach (Careful smallMachine) s ∧
    (s.cache.head 0).dirt = true ∧ ∃ cache, s.cache.syncDev smallMachine 4 0x300 = .ok cache ∧
      (cache.head 0).dirt = false := by
  have hrun : (System.runOf (System.guarded (Careful smallMachine) State.next) (writeWhole 0x300)
      State.boot).any (fun s => (s.cache.head 0).dirt &&
        (s.cache.syncDev smallMachine 4 0x300).toOption.any fun cache =>
          (cache.head 0).dev == 0x300) = true := by decide +kernel
  obtain ⟨s, hs, hp⟩ := (Option.any_eq_true _ _).mp hrun
  have hreach : (kernel smallMachine Unit).Reach (Careful smallMachine) s :=
    .of_guarded State.next_step (.init State.boot_start) hs
  rw [Bool.and_eq_true] at hp
  obtain ⟨cache, hc, hdev⟩ := (Option.any_eq_true _ _).mp hp.2
  have hok : s.cache.syncDev smallMachine 4 0x300 = .ok cache := by
    cases hr : s.cache.syncDev smallMachine 4 0x300 with
    | error e =>
      rw [hr] at hc
      cases hc
    | ok c =>
      rw [hr] at hc
      rw [Option.some.inj hc]
  exact ⟨s, hreach, hp.1, cache, hok,
    (dirty_cleanable hreach).1 4 0x300 cache hok 0 Nat.one_pos (beq_iff_eq.mp hdev)⟩

/-- A block that is written to a device without a driver stays dirty, and whoever needs the
buffer goes round for ever; and `blk_size` is read past its end for major number 9. -/
theorem dirty_stays : (∃ s, (kernel smallMachine Unit).Reachable s ∧
      (∃ cache, s.cache.syncDev smallMachine 4 0x400 = .ok cache ∧
        (cache.head 0).dev = 0x400 ∧ (cache.head 0).dirt = true) ∧
      ∀ fuel, s.cache.getblk smallMachine (Cache.syncDev smallMachine 4) 0x301 5 fuel =
        .error .forever) ∧
    State.boot.step smallMachine 4 (.blockIo () true 0x900 0 blockSize) = .error .wild := by
  refine ⟨?_, rfl⟩
  have hrun : (System.runOf State.next (writeWhole 0x400) State.boot).any (fun s =>
      (s.cache.head 0).dev == 0x400 && (s.cache.head 0).dirt && !(s.cache.head 0).lock &&
      (s.cache.findBuffer smallMachine 0x301 5).isNone &&
      s.cache.search none s.cache.free == some 0 &&
      (List.range nrInode).all fun i => !(s.cache.inode i).dirt) = true := by decide +kernel
  obtain ⟨s, hs, hp⟩ := (Option.any_eq_true _ _).mp hrun
  have hreach : (kernel smallMachine Unit).Reachable s :=
    .of_runOf State.next_step (fun _ _ _ => trivial) (.init State.boot_start) hs
  simp only [Bool.and_eq_true, beq_iff_eq, Bool.not_eq_true', Option.isNone_iff_eq_none] at hp
  obtain ⟨⟨⟨⟨⟨hdev, hdirt⟩, hlock⟩, hfind⟩, hsearch⟩, hinodes⟩ := hp
  have hi : ∀ i < nrInode, (s.cache.inode i).dirt = false := fun i hin => by
    simpa using List.all_eq_true.mp hinodes i (List.mem_range.mpr hin)
  have hl : ∀ x < smallMachine.nrBuffers, (s.cache.head x).dev = 0x400 →
      (s.cache.head x).lock = false := fun x hx _ => by
    rw [show x = 0 from Nat.lt_one_iff.mp hx, hlock]
  refine ⟨s, hreach, ⟨s.cache, Cache.syncDev_unserved rfl hl hi, hdev, hdirt⟩, fun fuel => ?_⟩
  exact Cache.getblk_forever hfind hsearch hdirt (by rw [hdev]; rfl) hlock (hdev ▸ hl) hi

end Fs.Cleaning
