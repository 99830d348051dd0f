/-
Concurrent `create_block` calls (`_bmap` of fs/inode.c, `new_block` of fs/bitmap.c).

A call may sleep where it reads an indirect block (`bread`), and twice in `new_block`:
in `getblk`, with the bit of the zone set, and in `brelse`, with the block cleared.
Only then is the zone stored to the place that was found to be zero.

* `Call.step` — a call up to its next sleep;
* `Creators.Inv` — what holds between the steps;
* `create_block_once` — calls agree on the block, no place that names one is overwritten
  and every bit set is of a block that is named or being allocated, as long as nobody
  allocates for a place that another call allocates for;
* `create_block_twice` — two calls for one block return two, one of which is lost.

Design notes: `get_super` does not sleep for a mounted device.  A call has its number for
good, so that what it returned stays.
-/
import Linux012.Zones

namespace Fs

open Function (update)

/-- Where a call sleeps. -/
inductive CreatePhase where
  /-- before the test of the first of the places -/
  | test (here : Option ℕ) (ks : List ℕ)
  /-- in `new_block`, for place `k`, before and after the block is cleared -/
  | getblk (n : ℕ) (here : Option ℕ) (k : ℕ) (ks : List ℕ)
  | brelse (n : ℕ) (here : Option ℕ) (k : ℕ) (ks : List ℕ)
  /-- reading the indirect block -/
  | bread (v : ℕ) (ks : List ℕ)
  | done (r : ℕ)
  deriving DecidableEq

/-- A call of `create_block`. -/
structure Call where
  inode : ℕ
  block : ℕ
  block_lt : block < Zones.maxBlock
  phase : CreatePhase
  deriving DecidableEq

namespace Call

/-- With block `v`, to the place below it. -/
def goOn (c : Call) (v : ℕ) (ks : List ℕ) : Call :=
  { c with phase := if ks = [] then .done v else .bread v ks }

/-- A call goes on to its next sleep; `ok` tells if the block could be read. -/
def step (c : Call) (ok : Bool) (z : Zones) : Call × Zones :=
  match c.phase with
  | .test _ [] => (c, z)
  | .test here (k :: ks) =>
    if z.value c.inode here k = 0 then
      match z.claimBlock with
      | (none, z) => ({ c with phase := .done 0 }, z)
      | (some n, z) => ({ c with phase := .getblk n here k ks }, z)
    else (c.goOn (z.value c.inode here k) ks, z)
  | .getblk n here k ks => ({ c with phase := .brelse n here k ks }, z.clearBlock n)
  | .brelse n here k ks => (c.goOn n ks, z.setValue c.inode here k n)
  | .bread v ks => ({ c with phase := if ok then .test (some v) ks else .done 0 }, z)
  | .done _ => (c, z)

/-- The place before the remaining ones. -/
def place (c : Call) (ks : List ℕ) : ℕ × List ℕ :=
  (c.inode, (Zones.path c.block).take ((Zones.path c.block).length - ks.length))

/-- The zone that a call has allocated and not stored yet. -/
def holds (c : Call) : Option ℕ :=
  match c.phase with
  | .getblk n _ _ _ => some n
  | .brelse n _ _ _ => some n
  | _ => none

/-- The place that it is for. -/
def fills (c : Call) : Option (ℕ × List ℕ) :=
  match c.phase with
  | .getblk _ _ _ ks => some (c.place ks)
  | .brelse _ _ _ ks => some (c.place ks)
  | _ => none

end Call

/-- The zones and the calls. -/
structure Creators where
  zones : Zones
  calls : ℕ → Option Call

/-- A call is made, or goes on. -/
inductive CreateEvent where
  | call (p i b : ℕ)
  | go (p : ℕ) (ok : Bool)

namespace Creators

/-- What an event leads to. -/
def next (s : Creators) : CreateEvent → Option Creators
  | .call p i b =>
    if h : b < Zones.maxBlock then
      if (s.calls p).isSome then none
      else some { s with calls := update s.calls p (some ⟨i, b, h, .test none (Zones.path b)⟩) }
    else none
  | .go p ok =>
    (s.calls p).map fun c =>
      { zones := (c.step ok s.zones).2, calls := update s.calls p (some (c.step ok s.zones).1) }

/-- A call that allocates a zone for a place is the only one that does, and the first
clear bit is not past the last zone. -/
def Alone (s : Creators) : CreateEvent → Prop
  | .call _ _ _ => True
  | .go p _ =>
    ∀ c here k ks, s.calls p = some c → c.phase = .test here (k :: ks) →
      s.zones.value c.inode here k = 0 → ¬ s.zones.PastEnd ∧
        ∀ n, s.zones.claimBlock.1 = some n →
          ∀ p' c', s.calls p' = some c' → c'.fills ≠ some (c.place ks)

end Creators

/-- The runs of `create_block` calls from `z`, a file system in order. -/
def creators (z : Zones) : System Creators CreateEvent where
  init s := s.zones = z ∧ z.Owned ∧ ∀ p, s.calls p = none
  step s a s' := s.next a = some s'

/-! ### What holds between the steps -/

namespace Zones

variable {z z' : Zones} {i k n v : ℕ} {π : List ℕ} {here : Option ℕ} {P : ℕ → List ℕ → Prop}

/-- A zone that is allocated and that no place names. -/
structure Fresh (z : Zones) (n : ℕ) : Prop where
  marked : z.Marked n
  inZone : z.firstDataZone ≤ n ∧ n < z.nZones
  unnamed : ∀ i ks, IsPath ks → z.named i ks ≠ n

/-- The walk over `π` leads to `here`, if all blocks can be read. -/
abbrev Leads (z : Zones) (i : ℕ) (π : List ℕ) (here : Option ℕ) : Prop :=
  z.At (fun _ => true) i π here

theorem Leads.keep (h : z.Leads i π here) (hf : Fills z z' P) : z'.Leads i π here := by
  rcases h with h | ⟨hπ, hne, hok, rfl⟩
  · exact .inl h
  · have hsame : z'.named i π = z.named i π := hf.keeps i π hπ hne
    rw [← show z'.walk (fun _ => true) i none π = z.walk (fun _ => true) i none π from hsame]
      at hne hok ⊢
    exact .inr ⟨hπ, hne, hok, rfl⟩

theorem Leads.cons (h : z.Leads i π here) (hpath : IsPath (π ++ [k]))
    (hv : z.value i here k = v) (hne : v ≠ 0) : z.Leads i (π ++ [k]) (some v) := by
  have hnamed : z.walk (fun _ => true) i none (π ++ [k]) = v := (At.named h).trans hv
  refine .inr ⟨hpath, ?_, rfl, ?_⟩
  · rwa [hnamed]
  · rw [hnamed]

theorem Fresh.pos (h : z.Fresh n) : n ≠ 0 := by
  have hfirst := z.firstDataZone_pos
  have hzone := h.inZone.1
  omega

theorem Fresh.keep (h : z.Fresh n) (hf : Fills z z' P)
    (hn : ∀ i ks, IsPath ks → z'.named i ks = z.named i ks ∨ z'.named i ks ≠ n) :
    z'.Fresh n := by
  constructor
  · have hmark := hf.bits _ _ h.marked
    rwa [Marked, hf.firstDataZone]
  · rw [hf.firstDataZone, hf.nZones]
    exact h.inZone
  · intro i ks hks
    rcases hn i ks hks with heq | hne
    · rw [heq]
      exact h.unnamed i ks hks
    · exact hne

/-- Clearing a block that nothing names changes nothing that is named. -/
theorem walk_clearBlock (hn : ∀ i ks, IsPath ks → z.named i ks ≠ n) {ok : ℕ → Bool} {ks : List ℕ}
    (hks : IsPath ks) : (z.clearBlock n).walk ok i none ks = z.walk ok i none ks := by
  induction ks using List.reverseRecOn with
  | nil => exact absurd rfl hks.ne_nil
  | append_singleton ρ l ih =>
    by_cases hρ : ρ = []
    · subst hρ
      rfl
    · rw [walk_snoc hρ, walk_snoc hρ, ih (hks.init hρ)]
      split
      case isTrue => rfl
      case isFalse hv =>
        rw [not_or] at hv
        have hne : z.walk ok i none ρ ≠ n := by
          rw [walk_eq_named hρ hv.1]
          exact hn i ρ (hks.init hρ)
        simp only [clearBlock]
        rw [Function.update_of_ne hne]

theorem named_clearBlock (hn : ∀ i ks, IsPath ks → z.named i ks ≠ n) {ks : List ℕ}
    (hks : IsPath ks) : (z.clearBlock n).named i ks = z.named i ks := walk_clearBlock hn hks

theorem Owned.fills_clearBlock (h : z.Owned) (hn : ∀ i ks, IsPath ks → z.named i ks ≠ n) :
    Fills z (z.clearBlock n) P where
  owned := by
    constructor
    · intro i ks hks hne
      rw [named_clearBlock hn hks] at hne ⊢
      exact h.inZone i ks hks hne
    · intro i ks hks hne
      rw [named_clearBlock hn hks] at hne ⊢
      exact h.marked i ks hks hne
    · intro i i' ks ks' hks hks' hne heq
      rw [named_clearBlock hn hks] at hne heq
      rw [named_clearBlock hn hks'] at heq
      exact h.distinct i i' ks ks' hks hks' hne heq
    · exact h.first
  firstDataZone := rfl
  nZones := rfl
  bits _ _ hb := hb
  fresh _ _ hclear hset := absurd hset hclear
  keeps _ _ hks _ := named_clearBlock hn hks
  frame _ _ _ hks _ := walk_clearBlock hn hks

end Zones

namespace Call

variable {z z' : Zones} {c c' : Call} {k n : ℕ} {ks π : List ℕ} {here : Option ℕ}
  {P : ℕ → List ℕ → Prop}

/-- A call that has allocated zone `n` for a place that is still zero. -/
structure Allocates (c : Call) (z : Zones) (n : ℕ) (here : Option ℕ) (k : ℕ) (ks : List ℕ) :
    Prop where
  fresh : z.Fresh n
  leads : ∃ π, Zones.path c.block = π ++ k :: ks ∧ z.Leads c.inode π here
  zero : z.value c.inode here k = 0

/-- A call between its steps. -/
def Good (c : Call) (z : Zones) : Prop :=
  match c.phase with
  | .test here ks => ks ≠ [] ∧ ∃ π, Zones.path c.block = π ++ ks ∧ z.Leads c.inode π here
  | .getblk n here k ks => c.Allocates z n here k ks
  | .brelse n here k ks => c.Allocates z n here k ks ∧ z.data n = fun _ => 0
  | .bread v ks => ks ≠ [] ∧ ∃ π, Zones.path c.block = π ++ ks ∧ z.Leads c.inode π (some v)
  | .done r => r ≠ 0 → z.named c.inode (Zones.path c.block) = r

theorem place_eq (h : Zones.path c.block = π ++ k :: ks) : c.place ks = (c.inode, π ++ [k]) := by
  rw [place, h, List.append_cons, List.length_append, Nat.add_sub_cancel, List.take_left]

theorem isPath (h : Zones.path c.block = π ++ k :: ks) : Zones.IsPath (π ++ [k]) := by
  have hpath := Zones.isPath_path c.block_lt
  rw [h, List.append_cons] at hpath
  exact hpath.left (by simp)

theorem Allocates.keep (h : c.Allocates z n here k ks) (hf : z.Fills z' P)
    (hfill : ∀ i ks', P i ks' → c.place ks ≠ (i, ks'))
    (hn : ∀ i ks, Zones.IsPath ks → z'.named i ks = z.named i ks ∨ z'.named i ks ≠ n) :
    c.Allocates z' n here k ks := by
  obtain ⟨π, hπ, hat⟩ := h.leads
  refine ⟨h.fresh.keep hf hn, ⟨π, hπ, hat.keep hf⟩, ?_⟩
  -- the place is none of those filled
  have hsame : z'.named c.inode (π ++ [k]) = z.named c.inode (π ++ [k]) :=
    hf.frame _ _ _ (isPath hπ) fun hP => hfill _ _ hP (place_eq hπ)
  rw [← (hat.keep hf).named, hsame, hat.named, h.zero]

/-- What another call does to the zones is no harm. -/
theorem Good.keep (h : c.Good z) (hf : z.Fills z' P)
    (hfill : ∀ i ks', P i ks' → c.fills ≠ some (i, ks'))
    (hn : ∀ n, c.holds = some n → ∀ i ks, Zones.IsPath ks →
      z'.named i ks = z.named i ks ∨ z'.named i ks ≠ n)
    (hdata : ∀ n, c.holds = some n → z.Fresh n → z'.data n = z.data n) : c.Good z' := by
  rw [Good] at h ⊢
  cases hphase : c.phase with
  | test here ks =>
    rw [hphase] at h
    obtain ⟨hks, π, hπ, hat⟩ := h
    exact ⟨hks, π, hπ, hat.keep hf⟩
  | getblk n here k ks =>
    rw [hphase] at h
    simp only [holds, fills, hphase, Option.some.injEq, ne_eq] at hfill hn
    exact Allocates.keep h hf hfill (hn n rfl)
  | brelse n here k ks =>
    rw [hphase] at h
    simp only [holds, fills, hphase, Option.some.injEq, ne_eq] at hfill hn hdata
    refine ⟨h.1.keep hf hfill (hn n rfl), ?_⟩
    rw [hdata n rfl h.1.fresh]
    exact h.2
  | bread v ks =>
    rw [hphase] at h
    obtain ⟨hks, π, hπ, hat⟩ := h
    exact ⟨hks, π, hπ, hat.keep hf⟩
  | done r =>
    rw [hphase] at h
    intro hr
    have hsame := hf.keeps c.inode _ (Zones.isPath_path c.block_lt) (h hr ▸ hr)
    exact hsame.trans (h hr)

/-- A block is found, or stored: the call goes on below it. -/
theorem good_goOn {v : ℕ} (hπ : Zones.path c.block = π ++ k :: ks)
    (hat : z.Leads c.inode π here) (hv : z.value c.inode here k = v) (hne : v ≠ 0) :
    (c.goOn v ks).Good z := by
  have hat' := hat.cons (isPath hπ) hv hne
  rw [Good, goOn]
  by_cases hks : ks = []
  · subst hks
    simp only [if_true]
    intro _
    rw [hπ, hat.named, hv]
  · simp only [hks, if_false]
    exact ⟨hks, π ++ [k], by rw [hπ, List.append_cons], hat'⟩

theorem holds_goOn {v : ℕ} : (c.goOn v ks).holds = none := by
  rw [goOn]
  by_cases hks : ks = [] <;> simp [holds, hks]

theorem fills_goOn {v : ℕ} : (c.goOn v ks).fills = none := by
  rw [goOn]
  by_cases hks : ks = [] <;> simp [fills, hks]

end Call

namespace Creators

variable {z : Zones} {s s' : Creators} {c c₁ : Call} {p : ℕ} {z₁ : Zones} {P : ℕ → List ℕ → Prop}

/-- The state between the steps of a run from `z`. -/
structure Inv (z : Zones) (s : Creators) : Prop where
  grown : z.Fills s.zones fun _ _ => True
  good : ∀ p c, s.calls p = some c → c.Good s.zones
  holds : ∀ p p' c c', s.calls p = some c → s.calls p' = some c' → p ≠ p' →
    ∀ n, c.holds = some n → c'.holds ≠ some n
  fills : ∀ p p' c c', s.calls p = some c → s.calls p' = some c' → p ≠ p' →
    ∀ x, c.fills = some x → c'.fills ≠ some x
  bits : ∀ m j, ¬ z.Bit m j → s.zones.Bit m j →
    (∃ i ks, Zones.IsPath ks ∧ s.zones.named i ks = s.zones.zoneOf m j) ∨
    ∃ p c, s.calls p = some c ∧ c.holds = some (s.zones.zoneOf m j)

/-- The calls after one is set. -/
theorem calls_update {f : ℕ → Option Call} {p' : ℕ} {c' : Call}
    (h : update f p (some c₁) p' = some c') : p' = p ∧ c' = c₁ ∨ p' ≠ p ∧ f p' = some c' := by
  by_cases hp : p' = p
  · subst hp
    rw [Function.update_self] at h
    exact .inl ⟨rfl, (Option.some.inj h).symm⟩
  · rw [Function.update_of_ne hp] at h
    exact .inr ⟨hp, h⟩

/-- One call goes on. -/
theorem Inv.go (h : Inv z s) (hc : s.calls p = some c) (hf : s.zones.Fills z₁ P)
    (hgood : c₁.Good z₁) (hP : ∀ i ks, P i ks → c.fills = some (i, ks))
    (hn : ∀ i ks, Zones.IsPath ks →
      z₁.named i ks = s.zones.named i ks ∨ c.holds = some (z₁.named i ks))
    (hdata : ∀ n, s.zones.Fresh n → c.holds ≠ some n → z₁.data n = s.zones.data n)
    (hholds : ∀ n, c₁.holds = some n → c.holds = some n ∨
      ∀ p' c', s.calls p' = some c' → c'.holds ≠ some n)
    (hfills : ∀ x, c₁.fills = some x → c.fills = some x ∨
      ∀ p' c', s.calls p' = some c' → c'.fills ≠ some x)
    (hbits : ∀ m j, z₁.Bit m j → s.zones.Bit m j ∨ c₁.holds = some (z₁.zoneOf m j))
    (hkept : ∀ m j, c.holds = some (z₁.zoneOf m j) → c₁.holds = some (z₁.zoneOf m j) ∨
      ∃ i ks, Zones.IsPath ks ∧ z₁.named i ks = z₁.zoneOf m j) :
    Inv z ⟨z₁, update s.calls p (some c₁)⟩ := by
  refine ⟨h.grown.trans (hf.weaken fun _ _ _ => trivial), ?_, ?_, ?_, ?_⟩
  · intro p' c' hc'
    rcases calls_update hc' with ⟨rfl, rfl⟩ | ⟨hp, hc'⟩
    · exact hgood
    · refine (h.good p' c' hc').keep hf ?_ ?_ ?_
      · exact fun i ks hPi => h.fills p p' c c' hc hc' hp.symm _ (hP i ks hPi)
      · intro n hc'n i ks hks
        rcases hn i ks hks with heq | hheld
        · exact .inl heq
        · refine .inr ?_
          rintro rfl
          exact h.holds p p' c c' hc hc' hp.symm _ hheld hc'n
      · intro n hc'n hfresh
        exact hdata n hfresh fun hheld => h.holds p p' c c' hc hc' hp.symm n hheld hc'n
  · intro p' p'' c' c'' hc' hc'' hne n hn' hn''
    rcases calls_update hc' with ⟨rfl, rfl⟩ | ⟨hp', hs'⟩ <;>
    rcases calls_update hc'' with ⟨rfl, rfl⟩ | ⟨hp'', hs''⟩
    · exact hne rfl
    · rcases hholds n hn' with hold | hnone
      · exact h.holds _ _ _ _ hc hs'' hp''.symm n hold hn''
      · exact hnone _ _ hs'' hn''
    · rcases hholds n hn'' with hold | hnone
      · exact h.holds _ _ _ _ hs' hc hp' n hn' hold
      · exact hnone _ _ hs' hn'
    · exact h.holds _ _ _ _ hs' hs'' hne n hn' hn''
  · intro p' p'' c' c'' hc' hc'' hne x hx' hx''
    rcases calls_update hc' with ⟨rfl, rfl⟩ | ⟨hp', hs'⟩ <;>
    rcases calls_update hc'' with ⟨rfl, rfl⟩ | ⟨hp'', hs''⟩
    · exact hne rfl
    · rcases hfills x hx' with hold | hnone
      · exact h.fills _ _ _ _ hc hs'' hp''.symm x hold hx''
      · exact hnone _ _ hs'' hx''
    · rcases hfills x hx'' with hold | hnone
      · exact h.fills _ _ _ _ hs' hc hp' x hx' hold
      · exact hnone _ _ hs' hx'
    · exact h.fills _ _ _ _ hs' hs'' hne x hx' hx''
  · intro m j hclear hset
    have hz : z₁.zoneOf m j = s.zones.zoneOf m j := hf.zoneOf m j
    rcases hbits m j hset with hold | hheld
    · rcases h.bits m j hclear hold with ⟨i, ks, hks, hnamed⟩ | ⟨p', c', hc', hheld⟩
      · have hpos : s.zones.named i ks ≠ 0 := by
          have hdz := h.grown.fresh m j hclear hold
          have hfirst := z.firstDataZone_pos
          rw [hnamed, h.grown.zoneOf]
          omega
        refine .inl ⟨i, ks, hks, ?_⟩
        rw [hf.keeps i ks hks hpos, hnamed, hz]
      · by_cases hp : p' = p
        · subst hp
          obtain rfl : c = c' := Option.some.inj (hc.symm.trans hc')
          rcases hkept m j (hz ▸ hheld) with hheld' | hnamed
          · exact .inr ⟨p', c₁, Function.update_self _ _ _, hheld'⟩
          · exact .inl hnamed
        · refine .inr ⟨p', c', ?_, hz ▸ hheld⟩
          exact (Function.update_of_ne hp _ _).trans hc'
    · exact .inr ⟨p, c₁, Function.update_self _ _ _, hheld⟩

/-- A step that allocates no zone and leaves the zones alone. -/
theorem Inv.goSame (h : Inv z s) (hc : s.calls p = some c) (hgood : c₁.Good s.zones)
    (hholds : c.holds = none) (hholds₁ : c₁.holds = none) (hfills₁ : c₁.fills = none) :
    Inv z ⟨s.zones, update s.calls p (some c₁)⟩ := by
  refine h.go hc (.refl h.grown.owned : s.zones.Fills s.zones fun _ _ => False) hgood
    (fun _ _ hP => hP.elim) (fun _ _ _ => .inl rfl) (fun _ _ _ => rfl) ?_ ?_
    (fun _ _ hb => .inl hb) ?_
  · intro n hn
    rw [hholds₁] at hn
    cases hn
  · intro x hx
    rw [hfills₁] at hx
    cases hx
  · intro m j hm
    rw [hholds] at hm
    cases hm

theorem Inv.step {ok : Bool} (h : Inv z s) (hg : s.Alone (.go p ok)) (hc : s.calls p = some c) :
    Inv z ⟨(c.step ok s.zones).2, update s.calls p (some (c.step ok s.zones).1)⟩ := by
  have hgood := h.good p c hc
  rw [Call.Good] at hgood
  rw [Call.step]
  cases hphase : c.phase with
  | test here ks =>
    rw [hphase] at hgood
    obtain ⟨hks, π, hπ, hat⟩ := hgood
    cases ks with
    | nil => exact absurd rfl hks
    | cons k ks =>
      have hnone : c.holds = none := by rw [Call.holds, hphase]
      simp only
      by_cases hzero : s.zones.value c.inode here k = 0
      · rw [if_pos hzero]
        obtain ⟨hrange, halone⟩ := hg c here k ks hc hphase hzero
        rcases Zones.claimBlock_cases h.grown.owned with ⟨hclaim, -⟩ |
          ⟨m, j, hsome, hclear, hj, hpos, ⟨-, hpast, -⟩ | ⟨hclaim, -, hlast⟩⟩
        · -- the bitmap is full
          rw [hclaim]
          exact h.goSame hc (fun hcon => absurd rfl hcon) hnone rfl rfl
        · exact absurd hpast hrange
        · -- a zone is allocated
          rw [hclaim]
          have hset : (s.zones.setBit m j).Bit m j := (Zones.bit_setBit hsome).mpr (.inr ⟨rfl, rfl⟩)
          have hmark := (Zones.marked_zoneOf (s := s.zones.setBit m j) hj).mpr hset
          have hunmarked : ¬ s.zones.Marked (s.zones.zoneOf m j) := fun hcon =>
            hclear ((Zones.marked_zoneOf hj).mp hcon)
          have hf : s.zones.Fills (s.zones.setBit m j) fun _ _ => False :=
            h.grown.owned.fills_setBit hsome hpos
          have hfresh : (s.zones.setBit m j).Fresh (s.zones.zoneOf m j) := by
            refine ⟨hmark, ⟨hpos, hlast⟩, fun i ks hks heq => hunmarked ?_⟩
            rw [Zones.named_setBit] at heq
            have hfirst := s.zones.firstDataZone_pos
            exact heq ▸ h.grown.owned.marked i ks hks (by omega)
          have hall : ({ c with phase := .getblk (s.zones.zoneOf m j) here k ks } : Call).Allocates
              (s.zones.setBit m j) (s.zones.zoneOf m j) here k ks :=
            ⟨hfresh, ⟨π, hπ, Zones.Leads.keep hat hf⟩, by rw [← hzero]; cases here <;> rfl⟩
          refine h.go hc hf hall (fun _ _ hP => hP.elim) (fun _ _ _ => .inl Zones.named_setBit)
            (fun _ _ _ => rfl) ?_ ?_ ?_ ?_
          · -- no other call holds it, as its bit was clear
            intro n hn
            obtain rfl : s.zones.zoneOf m j = n := Option.some.inj hn
            refine .inr fun p' c' hc' hheld => hunmarked ?_
            have hgood' := h.good p' c' hc'
            rw [Call.Good] at hgood'
            rw [Call.holds] at hheld
            split at hheld
            case h_1 hphase' =>
              rw [hphase'] at hgood'
              exact Option.some.inj hheld ▸ hgood'.fresh.marked
            case h_2 hphase' =>
              rw [hphase'] at hgood'
              exact Option.some.inj hheld ▸ hgood'.1.fresh.marked
            case h_3 => cases hheld
          · intro x hx
            obtain rfl := Option.some.inj hx
            refine .inr (halone (s.zones.zoneOf m j) ?_)
            rw [hclaim]
          · intro m' j' hset'
            rcases (Zones.bit_setBit hsome).mp hset' with hold | ⟨rfl, rfl⟩
            · exact .inl hold
            · exact .inr rfl
          · intro m' j' hheld
            rw [hnone] at hheld
            cases hheld
      · rw [if_neg hzero]
        exact h.goSame hc (Call.good_goOn hπ hat rfl hzero) hnone Call.holds_goOn Call.fills_goOn
  | getblk n here k ks =>
    rw [hphase] at hgood
    simp only
    have hheld : c.holds = some n := by rw [Call.holds, hphase]
    have hfilled : c.fills = some (c.place ks) := by rw [Call.fills, hphase]
    have hf : s.zones.Fills (s.zones.clearBlock n) fun _ _ => False :=
      h.grown.owned.fills_clearBlock hgood.fresh.unnamed
    have hnames : ∀ i ks, Zones.IsPath ks →
        (s.zones.clearBlock n).named i ks = s.zones.named i ks :=
      fun i ks hks => Zones.named_clearBlock hgood.fresh.unnamed hks
    have hall : c.Allocates (s.zones.clearBlock n) n here k ks :=
      Call.Allocates.keep hgood hf (fun _ _ hP => hP.elim) fun i ks hks => .inl (hnames i ks hks)
    refine h.go hc hf ⟨⟨hall.fresh, hall.leads, hall.zero⟩, ?_⟩ (fun _ _ hP => hP.elim) (fun i ks hks => .inl (hnames i ks hks))
      ?_ (fun n' hn' => .inl (hheld.trans hn')) (fun x hx => .inl (hfilled.trans hx))
      (fun _ _ hb => .inl hb) (fun m j hm => .inl (hheld.symm.trans hm))
    · exact Function.update_self _ _ _
    · intro n' _ hne
      refine Function.update_of_ne ?_ _ _
      rintro rfl
      exact hne hheld
  | brelse n here k ks =>
    rw [hphase] at hgood
    simp only
    obtain ⟨hall, hdata⟩ := hgood
    obtain ⟨π, hπ, hat⟩ := hall.leads
    have hheld : c.holds = some n := by rw [Call.holds, hphase]
    have hfilled : c.fills = some (c.place ks) := by rw [Call.fills, hphase]
    have hplace := Call.isPath hπ
    -- the block is clear, so the store is that of a call that did not sleep
    have hclear : s.zones.clearBlock n = s.zones := by
      rw [Zones.clearBlock, ← hdata, Function.update_eq_self]
    have hf := h.grown.owned.fill hat hall.zero hall.fresh.unnamed hall.fresh.marked
      hall.fresh.inZone
    have hnames : ∀ {i' ks'}, Zones.IsPath ks' →
        (s.zones.setValue c.inode here k n).named i' ks' =
          if i' = c.inode ∧ ks' = π ++ [k] then n else s.zones.named i' ks' := by
      rw [← show (s.zones.clearBlock n).setValue c.inode here k n =
        s.zones.setValue c.inode here k n by rw [hclear]]
      exact Zones.named_setValue h.grown.owned hat hall.zero hall.fresh.unnamed
    rw [hclear] at hf
    refine h.go hc hf ?_ ?_ ?_ ?_ ?_ ?_ ?_ ?_
    · exact Call.good_goOn hπ (Zones.Leads.keep hat hf) Zones.value_setValue hall.fresh.pos
    · rintro i ks' ⟨rfl, rfl⟩
      rw [hfilled, Call.place_eq hπ]
    · intro i ks' hks'
      rw [hnames hks', hheld]
      split
      case isTrue => exact .inr rfl
      case isFalse => exact .inl rfl
    · -- the store is to a block that is named
      intro n' hfresh hne
      rcases hat with ⟨-, rfl⟩ | ⟨hπp, hne', -, rfl⟩
      · rfl
      · exact Function.update_of_ne (hfresh.unnamed c.inode π hπp).symm _ _
    · intro n' hn'
      rw [Call.holds_goOn] at hn'
      cases hn'
    · intro x hx
      rw [Call.fills_goOn] at hx
      cases hx
    · intro m j hb
      have hmap : (s.zones.setValue c.inode here k n).zmap = s.zones.zmap := by cases here <;> rfl
      rw [Zones.Bit, hmap] at hb
      exact .inl hb
    · intro m j hm
      refine .inr ⟨c.inode, π ++ [k], hplace, ?_⟩
      rw [hnames hplace, if_pos ⟨rfl, rfl⟩]
      exact Option.some.inj (hheld.symm.trans hm)
  | bread v ks =>
    rw [hphase] at hgood
    have hnone : c.holds = none := by rw [Call.holds, hphase]
    simp only
    cases ok with
    | true => exact h.goSame hc hgood hnone rfl rfl
    | false => exact h.goSame hc (fun hcon => absurd rfl hcon) hnone rfl rfl
  | done r =>
    have hnone : c.holds = none := by rw [Call.holds, hphase]
    exact h.goSame hc (h.good p c hc) hnone hnone (by rw [Call.fills, hphase])

theorem Inv.call {i b : ℕ} (h : Inv z s) (hb : b < Zones.maxBlock) (hfree : s.calls p = none) :
    Inv z { s with calls := update s.calls p (some ⟨i, b, hb, .test none (Zones.path b)⟩) } := by
  refine ⟨h.grown, ?_, ?_, ?_, ?_⟩
  · intro p' c' hc'
    rcases calls_update hc' with ⟨rfl, rfl⟩ | ⟨-, hs'⟩
    · exact ⟨(Zones.isPath_path hb).ne_nil, [], rfl, .inl ⟨rfl, rfl⟩⟩
    · exact h.good p' c' hs'
  · intro p' p'' c' c'' hc' hc'' hne n hn hn'
    rcases calls_update hc' with ⟨rfl, rfl⟩ | ⟨-, hs'⟩
    · cases hn
    · rcases calls_update hc'' with ⟨rfl, rfl⟩ | ⟨-, hs''⟩
      · cases hn'
      · exact h.holds p' p'' c' c'' hs' hs'' hne n hn hn'
  · intro p' p'' c' c'' hc' hc'' hne x hx hx'
    rcases calls_update hc' with ⟨rfl, rfl⟩ | ⟨-, hs'⟩
    · cases hx
    · rcases calls_update hc'' with ⟨rfl, rfl⟩ | ⟨-, hs''⟩
      · cases hx'
      · exact h.fills p' p'' c' c'' hs' hs'' hne x hx hx'
  · intro m j hclear hset
    rcases h.bits m j hclear hset with hnamed | ⟨p', c', hc', hheld⟩
    · exact .inl hnamed
    · have hp : p' ≠ p := by
        rintro rfl
        rw [hfree] at hc'
        cases hc'
      exact .inr ⟨p', c', (Function.update_of_ne hp _ _).trans hc', hheld⟩

theorem Inv.next {e : CreateEvent} (h : Inv z s) (hg : s.Alone e) (hs : s.next e = some s') :
    Inv z s' := by
  cases e with
  | call p i b =>
    rw [Creators.next] at hs
    split at hs
    case isFalse => cases hs
    case isTrue hb =>
      split at hs
      case isTrue => cases hs
      case isFalse hfree =>
        obtain rfl := Option.some.inj hs
        exact h.call hb (by simpa using hfree)
  | go p ok =>
    obtain ⟨c, hc, rfl⟩ := Option.map_eq_some_iff.mp hs
    exact h.step hg hc

theorem Inv.init (h : z.Owned) {calls : ℕ → Option Call} (hcalls : ∀ p, calls p = none) :
    Inv z ⟨z, calls⟩ := by
  refine ⟨.refl h, ?_, ?_, ?_, fun m j hclear hset => absurd hset hclear⟩
  · intro p c hc
    cases (hcalls p).symm.trans hc
  · intro p p' c c' hc
    cases (hcalls p).symm.trans hc
  · intro p p' c c' hc
    cases (hcalls p).symm.trans hc

theorem Inv.reach (h : (creators z).Reach Alone s) : Inv z s := by
  refine h.invariant (I := Inv z) ?_ fun s e s' h hg hs => h.next hg hs
  rintro ⟨zones, calls⟩ ⟨hzones, howned, hcalls⟩
  obtain rfl : zones = z := hzones
  exact .init howned hcalls

/-- The state as the start of what follows. -/
theorem Inv.rebase (h : Inv z s) : Inv s.zones s where
  grown := .refl h.grown.owned
  good := h.good
  holds := h.holds
  fills := h.fills
  bits _ _ hclear hset := absurd hset hclear

theorem Inv.agree {p' : ℕ} {c' : Call} {r r' : ℕ} (h : Inv z s) (hc : s.calls p = some c)
    (hc' : s.calls p' = some c') (hr : c.phase = .done r) (hr' : c'.phase = .done r')
    (hi : c.inode = c'.inode) (hb : c.block = c'.block) (hne : r ≠ 0) (hne' : r' ≠ 0) : r = r' := by
  have hgood := h.good p c hc
  have hgood' := h.good p' c' hc'
  rw [Call.Good, hr] at hgood
  rw [Call.Good, hr'] at hgood'
  rw [← hgood hne, ← hgood' hne', hi, hb]

end Creators

/-- From a file system in order, in every run of concurrent `create_block` calls in which
no call allocates for a place that another call allocates for, nor a bit past the last
zone: calls for one file block return one block, a place keeps the block that it names,
and a bit that has been set is of a block that one place names or that a call is about to
store. -/
theorem create_block_once {z : Zones} {s : Creators} (hr : (creators z).Reach Creators.Alone s) :
    s.zones.Owned ∧
    (∀ p p' c c' r r', s.calls p = some c → s.calls p' = some c' → c.phase = .done r →
      c'.phase = .done r' → c.inode = c'.inode → c.block = c'.block → r ≠ 0 → r' ≠ 0 → r = r') ∧
    (∀ e s', s.Alone e → s.next e = some s' → ∀ i ks, Zones.IsPath ks →
      s.zones.named i ks ≠ 0 → s'.zones.named i ks = s.zones.named i ks) ∧
    ∀ m j, ¬ z.Bit m j → s.zones.Bit m j →
      (∃ i ks, Zones.IsPath ks ∧ s.zones.named i ks = s.zones.zoneOf m j ∧
        ∀ i' ks', Zones.IsPath ks' → s.zones.named i' ks' = s.zones.zoneOf m j → i' = i ∧ ks' = ks) ∨
      ∃ p c, s.calls p = some c ∧ c.holds = some (s.zones.zoneOf m j) := by
  have hinv : Creators.Inv z s := .reach hr
  refine ⟨hinv.grown.owned, ?_, ?_, ?_⟩
  · intro p p' c c' r r' hc hc' hr hr' hi hb hne hne'
    exact hinv.agree hc hc' hr hr' hi hb hne hne'
  · intro e s' hg hs i ks hks hne
    exact (hinv.rebase.next hg hs).grown.keeps i ks hks hne
  · intro m j hclear hset
    rcases hinv.bits m j hclear hset with ⟨i, ks, hks, hnamed⟩ | hheld
    · have hpos : s.zones.zoneOf m j ≠ 0 := by
        have hdata := hinv.grown.fresh m j hclear hset
        have hfirst := z.firstDataZone_pos
        rw [hinv.grown.zoneOf]
        omega
      exact .inl ⟨i, ks, hks, hnamed, hinv.grown.owned.unique hks hnamed hpos⟩
    · exact .inr hheld

namespace Creators

/-- Zones 5 and 6 are free, and there is no call yet. -/
def start : Creators where
  zones :=
    { Zones.device 1 with
      zmap := fun m => if m = 0 then some fun j => j ≠ 1 ∧ j ≠ 2 else none
      nZones := 7
      nZones_lt := by decide }
  calls _ := none

theorem init_start : (creators start.zones).init start := by
  refine ⟨rfl, .empty (fun _ _ => rfl) fun bits hbits => ?_, fun _ => rfl⟩
  rw [← Option.some.inj hbits]
  rfl

/-- A call is made. -/
def called : Creators :=
  { start with
    calls := update start.calls 0 (some ⟨1, 0, by decide, .test none (Zones.path 0)⟩) }

/-- It has allocated zone 5. -/
def allocating : Creators where
  zones := start.zones.setBit 0 1
  calls := update called.calls 0 (some ⟨1, 0, by decide, .getblk 5 none 0 []⟩)

theorem reach_allocating : (creators start.zones).Reach Alone allocating := by
  have hfind : start.zones.findBit 8 0 = some (0, 1) := by decide
  have hclaim : start.zones.claimBlock = (some 5, start.zones.setBit 0 1) := by
    rw [Zones.claimBlock, hfind]
    exact if_neg (by decide)
  have hcalled : (creators start.zones).Reach Alone called := by
    refine .step (.init init_start) (a := .call 0 1 0) trivial ?_
    show start.next (.call 0 1 0) = some called
    rw [next, dif_pos (by decide), if_neg (by decide)]
    rfl
  refine .step hcalled (a := .go 0 true) ?_ ?_
  · intro c here k ks hc hphase hzero
    constructor
    · rintro ⟨m, j, hbit, hlast⟩
      cases hfind.symm.trans hbit
      exact absurd hlast (by decide)
    · -- the only call fills no place yet
      intro n hn p' c' hc' hfills
      rcases calls_update hc' with ⟨rfl, rfl⟩ | ⟨-, hnone⟩
      · cases hfills
      · cases hnone
  · show called.next (.go 0 true) = some allocating
    have hcall : called.calls 0 = some ⟨1, 0, by decide, .test none (Zones.path 0)⟩ := rfl
    have hpath : Zones.path 0 = [0] := rfl
    have hzero : called.zones.value 1 none 0 = 0 := rfl
    rw [next, hcall, Option.map_some, Call.step, hpath]
    simp only
    rw [if_pos hzero, show called.zones.claimBlock = _ from hclaim]
    rfl

end Creators

theorem create_block_once_allocating :
    (∃ i ks, Zones.IsPath ks ∧ Creators.allocating.zones.named i ks = 5 ∧
      ∀ i' ks', Zones.IsPath ks' → Creators.allocating.zones.named i' ks' = 5 → i' = i ∧ ks' = ks) ∨
    ∃ p c, Creators.allocating.calls p = some c ∧ c.holds = some 5 := by
  refine (create_block_once Creators.reach_allocating).2.2.2 0 1 ?_ ?_
  · rintro ⟨bits, hbits, htrue⟩
    rw [← Option.some.inj hbits] at htrue
    cases htrue
  · exact (Zones.bit_setBit rfl).mpr (.inr ⟨rfl, rfl⟩)

namespace Creators

/-- Two calls for block 0 of inode 1; the second finds the place zero while the first
sleeps in `getblk`, and is about to store its zone when the first has returned. -/
def atOnce : List CreateEvent :=
  [.call 0 1 0, .go 0 true, .call 1 1 0, .go 1 true, .go 0 true, .go 0 true, .go 1 true]

theorem run_atOnce : (System.runOf next atOnce start).any (fun s =>
    decide (s.zones.named 1 [0] = 5) && (s.next (.go 1 true)).any fun s' =>
      decide (s'.zones.named 1 [0] = 6 ∧
        (s'.calls 0).any (fun c => decide (c.inode = 1 ∧ c.block = 0 ∧ c.phase = .done 5)) ∧
        (s'.calls 1).any fun c => decide (c.inode = 1 ∧ c.block = 0 ∧ c.phase = .done 6))) =
      true := by
  decide +kernel

end Creators

/-- The two calls return two blocks for block 0, and the second overwrites the first. -/
theorem create_block_twice : ∃ s s', (creators Creators.start.zones).Reachable s ∧
    s.next (.go 1 true) = some s' ∧ s.zones.named 1 [0] = 5 ∧ s'.zones.named 1 [0] = 6 ∧
    (∃ c, s'.calls 0 = some c ∧ c.inode = 1 ∧ c.block = 0 ∧ c.phase = .done 5) ∧
    ∃ c, s'.calls 1 = some c ∧ c.inode = 1 ∧ c.block = 0 ∧ c.phase = .done 6 := by
  obtain ⟨s, hrun, hs⟩ := (Option.any_eq_true _ _).mp Creators.run_atOnce
  rw [Bool.and_eq_true] at hs
  obtain ⟨s', hnext, hs'⟩ := (Option.any_eq_true _ _).mp hs.2
  obtain ⟨hnamed, hc, hc'⟩ := of_decide_eq_true hs'
  obtain ⟨c, hcall, hdone⟩ := (Option.any_eq_true _ _).mp hc
  obtain ⟨c', hcall', hdone'⟩ := (Option.any_eq_true _ _).mp hc'
  have hr : (creators Creators.start.zones).Reachable s :=
    System.Reach.of_runOf (fun _ _ _ h => h) (fun _ _ _ => trivial) (.init Creators.init_start) hrun
  exact ⟨s, s', hr, hnext, of_decide_eq_true hs.1, hnamed, ⟨c, hcall, of_decide_eq_true hdone⟩,
    c', hcall', of_decide_eq_true hdone'⟩

end Fs
