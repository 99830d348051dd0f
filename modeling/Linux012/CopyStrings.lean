/-
`copy_strings`: the strings of an `execve`, copied downwards into pages (fs/exec.c).

* `Args` — the pages, the offset `p` of the latest string, and the segment of `fs`;
* `copyStrings` — one call, with the segment switches and the pages it takes;
* `Outcome` — what a part of the copying does, by the room and the pages it needs;
* `After` — what a sequence of calls does: the strings lie in order, or there was no room
  (`Fits`), or the copying ran down out of `page` (`Overruns`).
-/
import Linux012.Bytes

namespace Exec

def PAGE_SIZE : ℕ := 4096
def MAX_ARG_PAGES : ℕ := 32

/-- Where `p` starts. -/
def top : ℕ := PAGE_SIZE * MAX_ARG_PAGES - 4

/-- Subtraction of `unsigned long`. -/
def sub32 (a b : ℕ) : ℕ := (a + 2 ^ 32 - b % 2 ^ 32) % 2 ^ 32

theorem sub32_of_le {a b : ℕ} (hb : b ≤ a) (ha : a < 2 ^ 32) : sub32 a b = a - b := by
  rw [sub32]
  omega

/-- The segment that `fs` selects. -/
inductive Seg where
  | user
  | kernel
  deriving DecidableEq

/-- How a call ends before its end. -/
inductive Stop where
  /-- the result is minus this -/
  | error (errno : ℕ)
  | panic
  /-- It has read or written something else than it should: another array's memory, or
  memory of the wrong segment. What follows does not depend on the source alone. -/
  | wild
  deriving DecidableEq

/-- A pointer, as what it points at and the segment where that is. -/
structure Far (α : Type) where
  seg : Seg
  val : α

/-- What `get_fs_byte` or `get_fs_long` reads. -/
def Far.get {α : Type} (x : Far α) (fs : Seg) : Except Stop α :=
  if fs = x.seg then .ok x.val else .error .wild

theorem Far.get_self {α : Type} (x : Far α) : x.get x.seg = .ok x.val := if_pos rfl

/-- The argument `from_kmem`. -/
inductive FromKmem where
  /-- 0: the strings and the array of them are the user's -/
  | neither
  /-- 1: the array is the kernel's -/
  | array
  /-- 2: both are the kernel's -/
  | both
  deriving DecidableEq

/-- `page` and `p` of `do_execve`, and `fs`. -/
structure Args where
  page : ℕ → Option Bytes
  p : ℕ
  fs : Seg

/-- The local variables of `copy_strings`: `offset`, and the number of the page `pag`. -/
structure Cursor extends Args where
  offset : ℤ
  pag : ℕ

/-- How the loops of `copy_strings` are left early. -/
inductive Exit where
  | stop (s : Stop)
  /-- `return 0` -/
  | refused (a : Args)

theorem get_bind {α β : Type} (seg : Seg) (x : α) (f : α → Except Exit β) :
    (((⟨seg, x⟩ : Far α).get seg).mapError .stop >>= f) = f x := by
  rw [Far.get, if_pos rfl]
  rfl

section Code

variable (getFreePage : ℕ → Bool) (old : Seg) (kmem : FromKmem)

/-- `*(pag + offset) = b`. -/
def Cursor.store (c : Cursor) (b : UInt8) : Cursor :=
  { c with
    page := Function.update c.page c.pag
      ((c.page c.pag).map fun pg => Function.update pg c.offset.toNat b) }

/-- The page of `p` becomes `pag`; where there is none yet, `get_free_page` is asked for
one. `getFreePage i` tells whether it has one for `page[i]`. -/
def Cursor.turnPage (c : Cursor) : Except Exit Cursor :=
  let fs := if kmem = .both then old else c.fs
  let back := if kmem = .both then Seg.kernel else fs
  let i := c.p / PAGE_SIZE
  let offset := (c.p % PAGE_SIZE : ℕ)
  -- `page[i]` is no element of the array
  if MAX_ARG_PAGES ≤ i then .error (.stop .wild)
  else if (c.page i).isSome then .ok { c with offset, pag := i, fs := back }
  else if getFreePage i then
    .ok { c with offset, pag := i, fs := back, page := Function.update c.page i (some fun _ => 0) }
  else .error (.refused { c.toArgs with fs })

/-- The loop over `len`, once. -/
def copyByte (tmp : Far UInt8) (c : Cursor) : Except Exit Cursor := do
  let c := { c with p := sub32 c.p 1, offset := c.offset - 1 }
  let c ← if c.offset < 0 then c.turnPage getFreePage old kmem else .ok c
  let b ← (tmp.get c.fs).mapError .stop
  .ok (c.store b)

/-- The bytes of a string in segment `seg`, from its NUL downwards. -/
def copyBytes (seg : Seg) : List UInt8 → Cursor → Except Exit Cursor
  | [], c => .ok c
  | b :: bs, c => do
    let c ← copyByte getFreePage old kmem ⟨seg, b⟩ c
    copyBytes seg bs c

/-- The loop over `argc`, which is `n` here. -/
def copyLoop (argv : Far (List (Far CStr))) : ℕ → Cursor → Except Exit Cursor
  | 0, c => .ok c
  | n + 1, c => do
    let fs := if kmem = .array then Seg.kernel else c.fs
    let tmps ← (argv.get fs).mapError .stop
    match tmps[n]? with
    | none => .error (.stop .panic)
    | some tmp =>
      let c := { c with fs := if kmem = .array then old else c.fs }
      let s ← (tmp.get c.fs).mapError .stop
      -- `p` is unsigned: there is no such difference
      if sub32 c.p s.image.length < 0 then .error (.refused { c.toArgs with fs := old })
      else do
        let c ← copyBytes getFreePage old kmem tmp.seg s.image.reverse c
        copyLoop argv n c

/-- `p = copy_strings(argc, argv, page, p, from_kmem)`. -/
def copyStrings (argc : ℤ) (argv : Far (List (Far CStr))) (kmem : FromKmem) (a : Args) :
    Except Stop Args :=
  if a.p = 0 then .ok a
  else
    let fs := if kmem = .both then Seg.kernel else a.fs
    match copyLoop getFreePage a.fs kmem argv argc.toNat { a with fs, offset := 0, pag := 0 } with
    | .ok c => .ok { c.toArgs with fs := if kmem = .both then a.fs else c.fs }
    | .error (.refused a) => .ok { a with p := 0 }
    | .error (.stop s) => .error s

end Code

/-- The space for arguments as one piece of memory. -/
def Args.image (a : Args) : Bytes := fun x =>
  match a.page (x / PAGE_SIZE) with
  | some pg => pg (x % PAGE_SIZE)
  | none => 0

/-- There are pages for these offsets. -/
def Granted (getFreePage : ℕ → Bool) (lo hi : ℕ) : Prop :=
  ∀ x, lo ≤ x → x < hi → getFreePage (x / PAGE_SIZE) = true

section Bytes

variable {getFreePage : ℕ → Bool} {old fs : Seg} {kmem : FromKmem} {a : Args} {c : Cursor}
  {b : UInt8} {bs t : List UInt8}

theorem Granted.mono {lo lo' hi hi' : ℕ} (h : Granted getFreePage lo hi) (hlo : lo ≤ lo')
    (hhi : hi' ≤ hi) : Granted getFreePage lo' hi' :=
  fun x hx hx' => h x (hlo.trans hx) (hx'.trans_le hhi)

theorem Granted.join {lo mid hi : ℕ} (h : Granted getFreePage lo mid)
    (h' : Granted getFreePage mid hi) : Granted getFreePage lo hi := fun x hlo hhi =>
  (lt_or_ge x mid).elim (h x hlo) fun hmid => h' x hmid hhi

theorem Args.image_congr {x : ℕ} {a' : Args} (h : a'.page (x / PAGE_SIZE) = a.page (x / PAGE_SIZE)) :
    a'.image x = a.image x := by
  rw [image, image, h]

/-- `bs` has been copied. -/
structure Stored (getFreePage : ℕ → Bool) (a : Args) (bs : List UInt8) : Prop where
  p_add : a.p + bs.length = top
  present : ∀ x, a.p ≤ x → x < top → (a.page (x / PAGE_SIZE)).isSome
  granted : ∀ i, (a.page i).isSome → getFreePage i = true
  reads : a.image.Reads a.p bs

/-- `bs` has been copied, and the local variables say where. -/
structure Good (getFreePage : ℕ → Bool) (fs : Seg) (c : Cursor) (bs : List UInt8) : Prop
    extends Stored getFreePage c.toArgs bs where
  fs_eq : c.fs = fs
  offset : c.offset = 0 ∨
    c.offset = (c.p % PAGE_SIZE : ℕ) ∧ c.pag = c.p / PAGE_SIZE ∧ c.p < top

/-- How copying `t` below `bs` ends: it succeeds, or a page is refused, or it goes on
below 0. -/
def Outcome (getFreePage : ℕ → Bool) (old fs : Seg) (c : Cursor) (t bs : List UInt8)
    (r : Except Exit Cursor) : Prop :=
  (t.length ≤ c.p ∧ Granted getFreePage (c.p - t.length) c.p ∧
    ∃ c', r = .ok c' ∧ Good getFreePage fs c' (t ++ bs)) ∨
  (¬ Granted getFreePage (c.p - t.length) c.p ∧
    ∃ a : Args, r = .error (.refused a) ∧ a.fs = old) ∨
  (c.p < t.length ∧ Granted getFreePage 0 c.p ∧ r = .error (.stop .wild))

/-- Two parts of the copying, one after the other. -/
theorem Outcome.bind {t' : List UInt8} {r : Except Exit Cursor} {f : Cursor → Except Exit Cursor}
    (hp : c.p + bs.length = top) (h : Outcome getFreePage old fs c t bs r)
    (hf : ∀ c', Good getFreePage fs c' (t ++ bs) →
      Outcome getFreePage old fs c' t' (t ++ bs) (f c')) :
    Outcome getFreePage old fs c (t' ++ t) bs (r >>= f) := by
  rw [Outcome, List.length_append]
  rcases h with ⟨hle, hgr, c', rfl, hgood⟩ | ⟨hgr, a, rfl, ha⟩ | ⟨hlt, hgr, rfl⟩
  · have hp' : c'.p = c.p - t.length := by
      have := hgood.p_add
      rw [List.length_append] at this
      omega
    rcases hf c' hgood with ⟨hle', hgr', c'', hc, hgood'⟩ | ⟨hgr', a, hc, ha⟩ | ⟨hlt, hgr', hc⟩
    all_goals rw [hp'] at *
    · refine .inl ⟨by omega, ?_, c'', hc, by rwa [List.append_assoc]⟩
      rw [show c.p - (t'.length + t.length) = c.p - t.length - t'.length by omega]
      exact hgr'.join hgr
    · refine .inr (.inl ⟨fun hall => hgr' (hall.mono (by omega) (by omega)), a, hc, ha⟩)
    · exact .inr (.inr ⟨by omega, hgr'.join hgr, hc⟩)
  · exact .inr (.inl ⟨fun hall => hgr (hall.mono (by omega) le_rfl), a, rfl, ha⟩)
  · exact .inr (.inr ⟨by omega, hgr, rfl⟩)

theorem Cursor.image_store {pg : Bytes} {x : ℕ} (hpag : c.page c.pag = some pg)
    (hoff : c.offset = (x % PAGE_SIZE : ℕ)) (hx : c.pag = x / PAGE_SIZE) (y : ℕ) :
    (c.store b).image y = if y = x then b else c.image y := by
  have hstore : (c.store b).page = Function.update c.page c.pag
      (some (Function.update pg (x % PAGE_SIZE) b)) := by
    rw [store, hpag, hoff]
    rfl
  rw [Args.image, Args.image, hstore]
  by_cases hy : y / PAGE_SIZE = c.pag
  · rw [hy, Function.update_self, hpag]
    dsimp only
    rw [Function.update_apply]
    congr 1
    have h1 := Nat.div_add_mod y PAGE_SIZE
    have h2 := Nat.div_add_mod x PAGE_SIZE
    rw [hy, hx] at h1
    rw [eq_iff_iff]
    constructor
    · intro h
      rw [h] at h1
      exact h1.symm.trans h2
    · rintro rfl
      rfl
  · rw [Function.update_of_ne hy, if_neg]
    rintro rfl
    exact hy hx.symm

/-- A byte stored where the page is there. -/
theorem Cursor.store_good {pg : Bytes} (hp : c.p + 1 + bs.length = top)
    (hpag : c.page c.pag = some pg) (hoff : c.offset = (c.p % PAGE_SIZE : ℕ))
    (hnum : c.pag = c.p / PAGE_SIZE)
    (hpresent : ∀ x, c.p + 1 ≤ x → x < top → (c.page (x / PAGE_SIZE)).isSome)
    (hgranted : ∀ i, (c.page i).isSome → getFreePage i = true)
    (hreads : c.image.Reads (c.p + 1) bs) : Good getFreePage c.fs (c.store b) (b :: bs) where
  p_add := by
    rw [List.length_cons]
    exact (by omega : c.p + (bs.length + 1) = top)
  present x hx hx' := by
    rw [store]
    dsimp only
    rcases eq_or_ne (x / PAGE_SIZE) c.pag with h | h
    · rw [h, Function.update_self, hpag]
      rfl
    · rw [Function.update_of_ne h]
      refine hpresent x ?_ hx'
      exact lt_of_le_of_ne hx fun heq => h (by rw [hnum, ← heq]; rfl)
  granted i hi := by
    rw [store] at hi
    dsimp only at hi
    rcases eq_or_ne i c.pag with rfl | h
    · exact hgranted _ (by rw [hpag]; rfl)
    · rw [Function.update_of_ne h] at hi
      exact hgranted i hi
  reads := by
    refine ⟨?_, hreads.congr fun i hi _ => ?_⟩
    · rw [image_store hpag hoff hnum]
      exact if_pos rfl
    · rw [image_store hpag hoff hnum]
      exact if_neg (by omega)
  fs_eq := rfl
  offset := .inr ⟨hoff, hnum, (by omega : c.p < top)⟩

theorem top_eq : top = 131068 := rfl

theorem Good.p_le (hg : Good getFreePage fs c bs) : c.p ≤ 131068 := by
  have := hg.p_add
  rw [top_eq] at this
  omega

theorem page_lt {q : ℕ} (hq : q < top) : ¬ MAX_ARG_PAGES ≤ q / PAGE_SIZE := by
  rw [top_eq] at hq
  rw [MAX_ARG_PAGES, PAGE_SIZE]
  omega

theorem turnPage_wild (h : MAX_ARG_PAGES ≤ c.p / PAGE_SIZE) :
    c.turnPage getFreePage old kmem = .error (.stop .wild) := if_pos h

/-- Below 0 there is no page. -/
theorem copyByte_zero (hg : Good getFreePage fs c bs) (hp : c.p = 0) (tmp : Far UInt8) :
    copyByte getFreePage old kmem tmp c = .error (.stop .wild) := by
  have hoff : c.offset - 1 < 0 := by
    rcases hg.offset with h | ⟨h, -⟩
    · omega
    · rw [h, hp, Nat.zero_mod]
      exact Int.negSucc_lt_zero 0
  have hpage : MAX_ARG_PAGES ≤ sub32 c.p 1 / PAGE_SIZE := by
    rw [hp, sub32, MAX_ARG_PAGES, PAGE_SIZE]
    omega
  rw [copyByte]
  dsimp only
  rw [if_pos hoff, turnPage_wild (c := { c with p := sub32 c.p 1, offset := c.offset - 1 }) hpage]
  rfl

/-- What the step to another page leaves: a page that is there, or the refusal of one. -/
theorem turnPage_spec (present : ℕ → Prop) (hq : c.p < top) (hc : c.fs = fs)
    (hfs : fs = if kmem = .both then .kernel else old)
    (hpresent : ∀ i, present i → (c.page i).isSome)
    (hgranted : ∀ i, (c.page i).isSome → getFreePage i = true) :
    (∃ c' pg, c.turnPage getFreePage old kmem = .ok c' ∧ c'.p = c.p ∧ c'.fs = fs ∧
      c'.page c'.pag = some pg ∧ c'.offset = (c.p % PAGE_SIZE : ℕ) ∧ c'.pag = c.p / PAGE_SIZE ∧
      (∀ i, present i → c'.page i = c.page i) ∧
      ∀ i, (c'.page i).isSome → getFreePage i = true) ∨
    (¬ getFreePage (c.p / PAGE_SIZE) = true ∧
      ∃ a, c.turnPage getFreePage old kmem = .error (.refused a) ∧ a.fs = old) := by
  have hback : (if kmem = .both then Seg.kernel else if kmem = .both then old else c.fs) = fs := by
    rw [hc]
    by_cases hk : kmem = .both
    · rw [if_pos hk, hfs, if_pos hk]
    · rw [if_neg hk, if_neg hk]
  rw [Cursor.turnPage]
  dsimp only
  rw [if_neg (page_lt hq), hback]
  cases hpage : c.page (c.p / PAGE_SIZE) with
  | some pg =>
    rw [if_pos Option.isSome_some]
    exact .inl ⟨_, pg, rfl, rfl, rfl, hpage, rfl, rfl, fun _ _ => rfl, hgranted⟩
  | none =>
    rw [if_neg (by nofun)]
    by_cases hfree : getFreePage (c.p / PAGE_SIZE) = true
    · rw [if_pos hfree]
      refine .inl ⟨_, _, rfl, rfl, rfl, Function.update_self .., rfl, rfl, ?_, ?_⟩
      · intro i hi
        refine Function.update_of_ne ?_ _ _
        rintro rfl
        have := hpresent _ hi
        rw [hpage] at this
        cases this
      · intro i hi
        rcases eq_or_ne i (c.p / PAGE_SIZE) with rfl | hne
        · exact hfree
        · dsimp only at hi
          rw [Function.update_of_ne hne] at hi
          exact hgranted i hi
    · rw [if_neg hfree]
      refine .inr ⟨hfree, _, rfl, ?_⟩
      dsimp only
      split
      case isTrue => rfl
      case isFalse hk => rw [hc, hfs, if_neg hk]

theorem copyByte_outcome (hfs : fs = if kmem = .both then .kernel else old)
    (hg : Good getFreePage fs c bs) :
    Outcome getFreePage old fs c [b] bs (copyByte getFreePage old kmem ⟨fs, b⟩ c) := by
  have htop := hg.p_add
  have hle := hg.p_le
  rcases Nat.eq_zero_or_pos c.p with hp | hp
  · refine .inr (.inr ⟨by rw [hp]; exact Nat.one_pos, ?_, copyByte_zero hg hp _⟩)
    intro x _ hx
    omega
  obtain ⟨q, hq⟩ : ∃ q, c.p = q + 1 := ⟨c.p - 1, by omega⟩
  have hsub : sub32 c.p 1 = q := by
    rw [sub32_of_le hp (by omega)]
    omega
  have hreads := hg.reads
  have hpresent := hg.present
  rw [hq] at hreads hpresent
  -- what is left to do where the page of `q` is there
  have hdone : ∀ (c' : Cursor) (pg : Bytes), c'.p = q → c'.fs = fs → c'.page c'.pag = some pg →
      c'.offset = (q % PAGE_SIZE : ℕ) → c'.pag = q / PAGE_SIZE →
      (∀ x, q + 1 ≤ x → x < top → c'.page (x / PAGE_SIZE) = c.page (x / PAGE_SIZE)) →
      (∀ i, (c'.page i).isSome → getFreePage i = true) →
      Outcome getFreePage old fs c [b] bs
        (((⟨fs, b⟩ : Far UInt8).get c'.fs).mapError .stop >>= fun b => .ok (c'.store b)) := by
    intro c' pg hp' hfs' hpag hoff hnum hpage hgranted
    refine .inl ⟨by rw [hq]; exact Nat.le_add_left 1 q, ?_, c'.store b, ?_, ?_⟩
    · intro x hx hx'
      rw [hq, List.length_singleton, Nat.add_sub_cancel] at hx
      have : x = q := by omega
      rw [this, ← hnum]
      exact hgranted _ (by rw [hpag]; rfl)
    · rw [hfs', Far.get_self]
      rfl
    · rw [← hp'] at hpage hpresent hreads hoff hnum
      have hgood : Good getFreePage c'.fs (c'.store b) (b :: bs) := by
        refine c'.store_good (by omega) hpag hoff hnum ?_ hgranted ?_
        · intro x hx hx'
          rw [hpage x hx hx']
          exact hpresent x hx hx'
        · exact hreads.congr fun i hi hi' => Args.image_congr (hpage i hi (by omega))
      rwa [← hfs']
  rw [copyByte]
  dsimp only
  rw [hsub]
  by_cases hoff : c.offset - 1 < 0
  · -- `q` is the last byte of its page, or the first one that this call stores
    rw [if_pos hoff]
    have hqtop : q < top := by omega
    rcases turnPage_spec (c := { c with p := q, offset := c.offset - 1 })
      (fun i => ∃ x, q + 1 ≤ x ∧ x < top ∧ x / PAGE_SIZE = i) hqtop hg.fs_eq hfs
      (fun i ⟨x, hx, hx', hi⟩ => hi ▸ hpresent x hx hx') hg.granted with
      ⟨c', pg, hok, hp', hfs', hpag, hoff', hnum, hpage, hgranted⟩ | ⟨hfree, a, hno, ha⟩
    · rw [hok]
      exact hdone c' pg hp' hfs' hpag hoff' hnum
        (fun x hx hx' => hpage _ ⟨x, hx, hx', rfl⟩) hgranted
    · rw [hno]
      refine .inr (.inl ⟨fun hall => hfree (hall q ?_ (by omega)), a, rfl, ha⟩)
      rw [hq, List.length_singleton, Nat.add_sub_cancel]
  · -- `q` is in the page of the byte above it
    rw [if_neg hoff]
    rcases hg.offset with h | ⟨h, hnum, hlt⟩
    · omega
    have hdiv : (q + 1) / PAGE_SIZE = q / PAGE_SIZE ∧ q % PAGE_SIZE + 1 = (q + 1) % PAGE_SIZE := by
      rw [hq] at h
      rw [PAGE_SIZE] at h ⊢
      omega
    rw [hq] at h hnum
    rw [hdiv.1] at hnum
    obtain ⟨pg, hpg⟩ := Option.isSome_iff_exists.mp (hg.present c.p le_rfl hlt)
    rw [hq, hdiv.1, ← hnum] at hpg
    refine hdone _ pg rfl hg.fs_eq hpg ?_ hnum (fun _ _ _ => rfl) hg.granted
    dsimp only
    rw [h, ← hdiv.2]
    omega

theorem Outcome.nil (hg : Good getFreePage fs c bs) :
    Outcome getFreePage old fs c [] bs (.ok c) := by
  refine .inl ⟨Nat.zero_le _, fun x hx hx' => ?_, c, rfl, hg⟩
  exact absurd (hx.trans_lt hx') (lt_irrefl _)

theorem copyBytes_outcome (hfs : fs = if kmem = .both then .kernel else old) (l : List UInt8)
    (hg : Good getFreePage fs c bs) :
    Outcome getFreePage old fs c l.reverse bs (copyBytes getFreePage old kmem fs l c) := by
  induction l generalizing c bs with
  | nil => exact .nil hg
  | cons b l ih =>
    rw [copyBytes, List.reverse_cons]
    exact (copyByte_outcome hfs hg).bind hg.p_add fun c' hg' => ih hg'

end Bytes

section Strings

variable {getFreePage : ℕ → Bool} {old fs : Seg} {kmem : FromKmem} {a : Args} {c : Cursor}
  {bs : List UInt8} {ss : List CStr} {argc : ℤ}

/-- The strings and the array of them in the segments that `from_kmem` says. -/
def FromKmem.source (kmem : FromKmem) (ss : List CStr) : Far (List (Far CStr)) where
  seg := if kmem = .neither then .user else .kernel
  val := ss.map fun s => ⟨if kmem = .both then .kernel else .user, s⟩

/-- The loop once, where the segments are right. -/
theorem copyLoop_succ {argv : Far (List (Far CStr))} {n : ℕ} {s : CStr}
    (harray : (if kmem = .array then Seg.kernel else c.fs) = argv.seg)
    (hseg : (if kmem = .array then old else c.fs) = c.fs) (hs : argv.val[n]? = some ⟨c.fs, s⟩) :
    copyLoop getFreePage old kmem argv (n + 1) c =
      copyBytes getFreePage old kmem c.fs s.image.reverse c >>=
        copyLoop getFreePage old kmem argv n := by
  rw [copyLoop, harray, Far.get_self]
  change (match argv.val[n]? with
    | none => _
    | some tmp => _) = _
  rw [hs, hseg]
  dsimp only
  rw [get_bind, if_neg (Nat.not_lt_zero _)]

theorem copyLoop_outcome (hfs : fs = if kmem = .both then .kernel else .user) {n : ℕ}
    (hn : n ≤ ss.length) (hg : Good getFreePage fs c bs) :
    Outcome getFreePage .user fs c (CStr.flat (ss.take n)) bs
      (copyLoop getFreePage .user kmem (kmem.source ss) n c) := by
  induction n generalizing c bs with
  | zero => exact .nil hg
  | succ n ih =>
    obtain ⟨s, hs⟩ : ∃ s, ss[n]? = some s := ⟨_, List.getElem?_eq_getElem hn⟩
    have harray : (if kmem = .array then Seg.kernel else c.fs) = (kmem.source ss).seg := by
      rw [hg.fs_eq, hfs, FromKmem.source]
      cases kmem <;> rfl
    have hseg : (if kmem = .array then Seg.user else c.fs) = c.fs := by
      rw [hg.fs_eq, hfs]
      cases kmem <;> rfl
    have htmp : (kmem.source ss).val[n]? = some ⟨c.fs, s⟩ := by
      rw [FromKmem.source, List.getElem?_map, hs, hg.fs_eq, hfs]
      rfl
    rw [copyLoop_succ harray hseg htmp, List.take_add_one, hs, CStr.flat_append]
    refine Outcome.bind hg.p_add ?_ fun c' hg' => ih (by omega) hg'
    have hbytes := copyBytes_outcome hfs s.image.reverse hg
    rw [List.reverse_reverse] at hbytes
    rw [Option.toList_some, CStr.flat_cons, CStr.flat_nil, List.append_nil, hg.fs_eq]
    exact hbytes

theorem copyStrings_outcome (kmem : FromKmem) (hargc : argc.toNat = ss.length) (ha : Stored getFreePage a bs)
    (hfs : a.fs = .user) (hp : a.p ≠ 0) :
    ((CStr.flat ss).length ≤ a.p ∧ Granted getFreePage (a.p - (CStr.flat ss).length) a.p ∧
      ∃ a', copyStrings getFreePage argc (kmem.source ss) kmem a = .ok a' ∧ a'.fs = .user ∧
        Stored getFreePage a' (CStr.flat ss ++ bs)) ∨
    (¬ Granted getFreePage (a.p - (CStr.flat ss).length) a.p ∧
      ∃ a', copyStrings getFreePage argc (kmem.source ss) kmem a = .ok a' ∧ a'.fs = .user ∧
        a'.p = 0) ∨
    (a.p < (CStr.flat ss).length ∧ Granted getFreePage 0 a.p ∧
      copyStrings getFreePage argc (kmem.source ss) kmem a = .error .wild) := by
  rw [copyStrings, if_neg hp, hargc, hfs]
  dsimp only
  set c : Cursor := { a with
    fs := if kmem = .both then .kernel else .user
    offset := 0
    pag := 0 }
  have hc : Good getFreePage c.fs c bs :=
    ⟨⟨ha.p_add, ha.present, ha.granted, ha.reads⟩, rfl, .inl rfl⟩
  have hloop := copyLoop_outcome rfl (le_refl ss.length) hc
  rw [List.take_length] at hloop
  rcases hloop with ⟨hle, hgr, c', hc, hg⟩ | ⟨hgr, a', hc, hfs'⟩ | ⟨hlt, hgr, hc⟩
  · refine .inl ⟨hle, hgr, ?_⟩
    rw [hc]
    refine ⟨_, rfl, ?_, hg.p_add, hg.present, hg.granted, hg.reads⟩
    dsimp only
    split
    case isTrue => rfl
    case isFalse hk => rw [hg.fs_eq, if_neg hk]
  · refine .inr (.inl ⟨hgr, ?_⟩)
    rw [hc]
    exact ⟨_, rfl, hfs', rfl⟩
  · refine .inr (.inr ⟨hlt, hgr, ?_⟩)
    rw [hc]

end Strings

/-! Several calls. `gs` holds the strings of each of them, the latest first, so that
`gs.flatten` is the strings in the order of their addresses. -/

section Calls

variable {getFreePage : ℕ → Bool} {a : Args} {ss : List CStr}
  {gs : List (List CStr)} {argc : ℤ} {r : Except Stop Args}

/-- The bytes that the strings take. -/
def size (gs : List (List CStr)) : ℕ := (CStr.flat gs.flatten).length

theorem size_cons : size (ss :: gs) = (CStr.flat ss).length + size gs := by
  rw [size, size, List.flatten_cons, CStr.flat_append, List.length_append]

/-- There is room for the strings, with a byte left, and there are pages for them. -/
def Fits (getFreePage : ℕ → Bool) (gs : List (List CStr)) : Prop :=
  size gs < top ∧ Granted getFreePage (top - size gs) top

/-- A call has more to copy than the room that is left, where some is left. -/
def Overruns : List (List CStr) → Prop
  | [] => False
  | ss :: gs => Overruns gs ∨ size gs < top ∧ top < size (ss :: gs)

theorem Fits.tail (h : Fits getFreePage (ss :: gs)) : Fits getFreePage gs := by
  rw [Fits, size_cons] at h
  exact ⟨by omega, h.2.mono (by omega) le_rfl⟩

/-- As long as there is room, no call has run down below 0. -/
theorem not_overruns (h : size gs ≤ top) : ¬ Overruns gs := by
  induction gs with
  | nil => exact id
  | cons ss gs ih =>
    rw [Overruns]
    rintro (hover | ⟨-, hlt⟩)
    · rw [size_cons] at h
      exact ih (by omega) hover
    · omega

/-- What the calls have come to. -/
def After (getFreePage : ℕ → Bool) (gs : List (List CStr)) (r : Except Stop Args) : Prop :=
  (Overruns gs ∧ Granted getFreePage 0 top ∧ r = .error .wild) ∨
  (¬ (Overruns gs ∧ Granted getFreePage 0 top) ∧ ∃ a, r = .ok a ∧ a.fs = .user ∧
    ((a.p = 0 ∧ ¬ Fits getFreePage gs) ∨
      (Fits getFreePage gs ∧ Stored getFreePage a (CStr.flat gs.flatten))))

theorem after_nil (hpage : ∀ i, a.page i = none) (hp : a.p = top) (hfs : a.fs = .user) :
    After getFreePage [] (.ok a) := by
  refine .inr ⟨fun h => h.1, a, rfl, hfs, .inr ⟨⟨by decide, fun x hx hx' => ?_⟩, ?_⟩⟩
  · exact absurd hx (not_le.mpr hx')
  · refine ⟨hp, fun x hx hx' => ?_, fun i hi => ?_, trivial⟩
    · rw [hp] at hx
      exact absurd hx (not_le.mpr hx')
    · rw [hpage] at hi
      cases hi

/-- One call more. -/
theorem After.call (h : After getFreePage gs r) (kmem : FromKmem) (hargc : argc.toNat = ss.length) :
    After getFreePage (ss :: gs)
      (r >>= copyStrings getFreePage argc (kmem.source ss) kmem) := by
  rcases h with ⟨hover, hgr, rfl⟩ | ⟨hover, a, rfl, hfs, ⟨hp, hfits⟩ | ⟨hfits, hst⟩⟩
  · exact .inl ⟨.inl hover, hgr, rfl⟩
  · -- there is no room any more, and the call does nothing
    refine .inr ⟨?_, a, if_pos hp, hfs, .inl ⟨hp, fun h => hfits h.tail⟩⟩
    rintro ⟨hover' | hover', hgr⟩
    · exact hover ⟨hover', hgr⟩
    · exact hfits ⟨hover'.1, hgr.mono (Nat.zero_le _) le_rfl⟩
  · have hp : a.p = top - size gs := by
      have := hst.p_add
      rw [size]
      omega
    have hlt := hfits.1
    have hnot := not_overruns hlt.le
    have hflat : CStr.flat (ss :: gs).flatten = CStr.flat ss ++ CStr.flat gs.flatten := by
      rw [List.flatten_cons, CStr.flat_append]
    rcases copyStrings_outcome kmem hargc hst hfs (by omega) with
      ⟨hle, hgr, a', hok, hfs', hst'⟩ | ⟨hgr, a', hok, hfs', hp'⟩ | ⟨hlt', hgr, hw⟩
    · have hsize : size (ss :: gs) ≤ top := by
        rw [size_cons]
        omega
      refine .inr ⟨fun h => not_overruns hsize h.1, a', hok, hfs', ?_⟩
      rcases hsize.lt_or_eq with hroom | hfull
      · refine .inr ⟨⟨hroom, ?_⟩, by rwa [hflat]⟩
        rw [hp] at hgr
        refine (hgr.mono ?_ le_rfl).join hfits.2
        rw [size_cons]
        omega
      · refine .inl ⟨?_, fun h => absurd h.1 (by omega)⟩
        have := hst'.p_add
        rw [← hflat] at this
        rw [size] at hfull
        omega
    · refine .inr ⟨?_, a', hok, hfs', .inl ⟨hp', fun h => hgr (h.2.mono ?_ ?_)⟩⟩
      · rintro ⟨-, hall⟩
        exact hgr (hall.mono (Nat.zero_le _) (by omega))
      · rw [size_cons]
        omega
      · omega
    · refine .inl ⟨.inr ⟨hlt, ?_⟩, ?_, hw⟩
      · rw [size_cons]
        omega
      · rw [hp] at hgr
        exact hgr.join hfits.2

end Calls

end Exec
