/-
The kernel allocator (lib/malloc.c).

* `Heap` — the bucket directory, the bucket descriptors, the words of memory, `mem_map`, and
  the calls that sleep in `get_free_page`;
* `malloc`, `freeS` — the calls, with `panic` as an error;
* `Kept` — the invariant: where each descriptor stands, and what it says of its page;
* `kernel_malloc` — what holds in every run.

Design notes: a call sleeps in `get_free_page` only, so that `malloc` is cut there in two: `malloc`
and `wake`. `live` holds the objects that were given out and not freed, `descs` the descriptors
that there are, `got` the pages for objects that are not given back; the source has none of them.
-/
import Linux012.Runs
import Linux012.Links
import Mathlib.Data.Fin.VecNotation
import Mathlib.Data.List.Perm.Basic

namespace Malloc

open Function (update)
open Links (IsList findFrom thread)

def PAGE_SIZE : ℕ := 4096

def LOW_MEM : ℕ := 0x100000

/-- The sizes of `bucket_dir`. -/
def bucketSize : Fin 9 → ℕ := ![16, 32, 64, 128, 256, 512, 1024, 2048, 4096]

/-- `struct bucket_desc`, without `next`, which `Heap` holds. -/
structure BucketDesc where
  page : ℕ
  freeptr : Option ℕ
  refcnt : BitVec 16
  bucketSize : BitVec 16

namespace BucketDesc

/-- An object is given out, and `p` is next. -/
def take (b : BucketDesc) (p : Option ℕ) : BucketDesc :=
  { b with freeptr := p, refcnt := b.refcnt + 1 }

/-- An object is given back. -/
def giveBack (b : BucketDesc) (obj : ℕ) : BucketDesc :=
  { b with freeptr := some obj, refcnt := b.refcnt - 1 }

def reset (b : BucketDesc) (size : ℕ) : BucketDesc :=
  { b with refcnt := 0, bucketSize := BitVec.ofNat 16 size }

def setPage (b : BucketDesc) (page : ℕ) : BucketDesc :=
  { b with page := page, freeptr := some page }

end BucketDesc

/-- A call of `malloc` in `get_free_page`. -/
inductive Asleep where
  /-- called by `init_bucket_desc` -/
  | desc (i : Fin 9) (len : ℕ)
  /-- called by `malloc`, which has taken the descriptor `d` -/
  | page (i : Fin 9) (len d : ℕ)

/-- The descriptor that a call has taken. -/
def Asleep.desc? : Asleep → Option ℕ
  | .desc _ _ => none
  | .page _ _ d => some d

structure Heap where
  chain : Fin 9 → Option ℕ
  freeDesc : Option ℕ
  bdesc : ℕ → BucketDesc
  next : ℕ → Option ℕ
  /-- the words of memory, `none` for 0 -/
  word : ℕ → Option ℕ
  memMap : ℕ → BitVec 8
  /-- the number of pages up to `HIGH_MEMORY` -/
  frames : ℕ
  asleep : List Asleep
  live : List (ℕ × ℕ)
  descs : List ℕ
  got : List ℕ

/-- The address of a page of `mem_map`. -/
def frameAddr (n : ℕ) : ℕ := LOW_MEM + n * PAGE_SIZE

/-- `obj & 0xfffff000`. -/
def pageOf (obj : ℕ) : ℕ := obj / PAGE_SIZE * PAGE_SIZE

/-- The first bucket that is large enough. -/
def findBucket (len : ℕ) : Option (Fin 9) := (List.finRange 9).find? fun i => len ≤ bucketSize i

namespace Heap

/-- The page that `get_free_page` has found. -/
def getFreePage (h : Heap) (n : ℕ) : Heap :=
  { h with
    memMap := update h.memMap n 1
    word := fun a => if pageOf a = frameAddr n then none else h.word a }

/-- `free_page`. -/
def freePage (h : Heap) (addr : ℕ) : Except String Heap :=
  if addr < LOW_MEM then .ok h
  else if LOW_MEM + h.frames * PAGE_SIZE ≤ addr then .error "trying to free nonexistent page"
  else
    let n := (addr - LOW_MEM) / PAGE_SIZE
    if h.memMap n = 0 then .error "trying to free free page"
    else .ok { h with memMap := update h.memMap n (h.memMap n - 1), got := h.got.erase n }

/-- The descriptors of a page. -/
def descsOf (page : ℕ) : List ℕ := List.range' page 256 16

/-- `init_bucket_desc`, behind `get_free_page`, where a new page is filled with 0. -/
def initBucketDesc (h : Heap) (first : ℕ) : Heap :=
  { h with
    bdesc := fun d => if d ∈ descsOf first then ⟨0, none, 0, 0⟩ else h.bdesc d
    next := thread 16 h.freeDesc 255 first h.next
    freeDesc := some first
    descs := descsOf first ++ h.descs }

/-- `malloc` takes a descriptor and calls `get_free_page`. -/
def takeDesc (h : Heap) (i : Fin 9) (len : ℕ) : Heap :=
  let d := h.freeDesc.getD 0
  { h with
    freeDesc := h.next d
    bdesc := update h.bdesc d ((h.bdesc d).reset (bucketSize i))
    asleep := .page i len d :: h.asleep }

/-- The new page of a descriptor is cut into objects, and the descriptor is linked in. -/
def setUp (h : Heap) (i : Fin 9) (d page : ℕ) : Heap :=
  { h with
    bdesc := update h.bdesc d ((h.bdesc d).setPage page)
    word := thread (bucketSize i) none (PAGE_SIZE / bucketSize i - 1) page h.word
    next := update h.next d (h.chain i)
    chain := update h.chain i (some d) }

/-- `malloc` takes an object from the page of a descriptor. -/
def allocate (h : Heap) (d len : ℕ) : Heap :=
  let retval := (h.bdesc d).freeptr.getD 0
  { h with
    bdesc := update h.bdesc d ((h.bdesc d).take (h.word retval))
    live := (retval, len) :: h.live }

/-- `malloc`, up to `get_free_page`. There are no more descriptors in a list than in `descs`. -/
def malloc (h : Heap) (len : ℕ) : Except String Heap :=
  match findBucket len with
  | none => .error "malloc: bad arg"
  | some i =>
    match findFrom h.next (fun d => (h.bdesc d).freeptr.isSome) h.descs.length none (h.chain i) with
    | some (_, d) => .ok (h.allocate d len)
    | none =>
      if h.freeDesc = none then .ok { h with asleep := .desc i len :: h.asleep }
      else .ok (h.takeDesc i len)

/-- `malloc`, behind `get_free_page`, which has found a page or none. -/
def wake (h : Heap) (k : ℕ) (found : Option ℕ) : Except String Heap :=
  let awake := { h with asleep := h.asleep.eraseIdx k }
  match h.asleep[k]?, found with
  | none, _ => .ok h
  | some (.desc _ _), none => .error "Out of memory in init_bucket_desc()"
  | some (.desc i len), some n =>
    .ok (((awake.getFreePage n).initBucketDesc (frameAddr n)).takeDesc i len)
  | some (.page _ _ _), none => .error "Out of memory in kernel malloc()"
  | some (.page i len d), some n =>
    .ok ({ (awake.getFreePage n).setUp i d (frameAddr n) with got := n :: h.got }.allocate d len)

/-- The bucket and the descriptor of a page, with the one before it. -/
def findPage (h : Heap) (page size : ℕ) : Option (Fin 9 × Option ℕ × ℕ) :=
  (List.finRange 9).findSome? fun i =>
    if bucketSize i < size then none
    else (findFrom h.next (fun d => (h.bdesc d).page = page) h.descs.length none (h.chain i)).map
      (i, ·)

/-- `prev`, searched again if it is no longer right. -/
def checkPrev (h : Heap) (i : Fin 9) (d : ℕ) : Option ℕ → Option ℕ
  | some p => if h.next p ≠ some d then again else some p
  | none => if h.chain i ≠ some d then again else none
where
  again := (findFrom h.next (fun p => h.next p = some d) h.descs.length none (h.chain i)).map (·.2)

/-- The descriptor is taken off its chain. -/
def unlink (h : Heap) (i : Fin 9) (d : ℕ) : Option ℕ → Except String Heap
  | some p => .ok { h with next := update h.next p (h.next d) }
  | none =>
    if h.chain i ≠ some d then .error "malloc bucket chains corrupted"
    else .ok { h with chain := update h.chain i (h.next d) }

/-- The object is put on the free list of its page. -/
def putObj (h : Heap) (d obj : ℕ) : Heap :=
  { h with
    word := update h.word obj (h.bdesc d).freeptr
    bdesc := update h.bdesc d ((h.bdesc d).giveBack obj)
    live := h.live.filter (·.1 ≠ obj) }

/-- A descriptor is put on the free list. -/
def putDesc (h : Heap) (d : ℕ) : Heap :=
  { h with next := update h.next d h.freeDesc, freeDesc := some d }

/-- `free_s`. -/
def freeS (h : Heap) (obj size : ℕ) : Except String Heap :=
  match h.findPage (pageOf obj) size with
  | none => .error "Bad address passed to kernel free_s()"
  | some (i, prev, d) => do
    let h := h.putObj d obj
    if (h.bdesc d).refcnt = 0 then
      let h ← h.unlink i d (h.checkPrev i d prev)
      let h ← h.freePage (h.bdesc d).page
      return h.putDesc d
    else return h

end Heap

inductive Event where
  | malloc (len : ℕ)
  /-- a call that sleeps in `get_free_page` goes on -/
  | wake (k : ℕ) (found : Option ℕ)
  | free (obj size : ℕ)
  /-- stores to objects and to other pages, and other calls of `get_free_page` and `free_page` -/
  | others (word : ℕ → Option ℕ) (memMap : ℕ → BitVec 8)

namespace Heap

/-- A page for objects, or for descriptors. -/
def Ours (h : Heap) (n : ℕ) : Prop := n ∈ h.got ∨ frameAddr n ∈ h.descs

def Can (h : Heap) : Event → Prop
  | .malloc _ => True
  | .wake k found => k < h.asleep.length ∧ ∀ n, found = some n → n < h.frames ∧ h.memMap n = 0
  | .free obj size => ∃ len, (obj, len) ∈ h.live ∧ (size = 0 ∨ size = len)
  | .others word memMap =>
    (∀ n ∈ h.got, ∀ a, pageOf a = frameAddr n → word a ≠ h.word a →
      ∃ o ∈ h.live, o.1 ≤ a ∧ a < o.1 + o.2) ∧
    ∀ n, h.Ours n → memMap n = h.memMap n

def step (h : Heap) : Event → Except String Heap
  | .malloc len => h.malloc len
  | .wake k found => h.wake k found
  | .free obj size => h.freeS obj size
  | .others word memMap => .ok { h with word := word, memMap := memMap }

end Heap

/-- The runs from the boot on; `panic` ends them. -/
def malloc : System Heap Event where
  init h := h.chain = (fun _ => none) ∧ h.freeDesc = none ∧ h.asleep = [] ∧ h.live = [] ∧
    h.descs = [] ∧ h.got = []
  step h e h' := h.Can e ∧ h.step e = .ok h'

/-! ### Pages and the objects in them -/

/-- The objects of a page. -/
def slots (i : Fin 9) (page : ℕ) : List ℕ :=
  List.range' page (PAGE_SIZE / bucketSize i) (bucketSize i)

variable {i i' : Fin 9} {a a' d d' n page len obj size : ℕ}

theorem bucketSize_pos (i : Fin 9) : 0 < bucketSize i := by
  revert i
  decide

theorem bucketSize_count (i : Fin 9) : PAGE_SIZE / bucketSize i * bucketSize i = PAGE_SIZE := by
  revert i
  decide

theorem count_le (i : Fin 9) : PAGE_SIZE / bucketSize i ≤ 256 := by
  revert i
  decide

theorem mem_slots : a ∈ slots i page ↔ ∃ k < PAGE_SIZE / bucketSize i, a = page + bucketSize i * k :=
  List.mem_range'

theorem slot_bounds (ha : a ∈ slots i page) : page ≤ a ∧ a + bucketSize i ≤ page + PAGE_SIZE := by
  obtain ⟨k, hk, rfl⟩ := mem_slots.mp ha
  have hle : (k + 1) * bucketSize i ≤ PAGE_SIZE / bucketSize i * bucketSize i :=
    Nat.mul_le_mul_right _ hk
  rw [bucketSize_count, Nat.succ_mul, Nat.mul_comm] at hle
  omega

/-- Two objects of a page do not overlap. -/
theorem slot_apart (ha : a ∈ slots i page) (ha' : a' ∈ slots i page) (hne : a ≠ a') :
    a + bucketSize i ≤ a' ∨ a' + bucketSize i ≤ a := by
  obtain ⟨k, -, rfl⟩ := mem_slots.mp ha
  obtain ⟨k', -, rfl⟩ := mem_slots.mp ha'
  rcases Nat.lt_trichotomy k k' with hlt | rfl | hlt
  · have hle : bucketSize i * (k + 1) ≤ bucketSize i * k' := Nat.mul_le_mul_left _ hlt
    rw [Nat.mul_succ] at hle
    omega
  · exact absurd rfl hne
  · have hle : bucketSize i * (k' + 1) ≤ bucketSize i * k := Nat.mul_le_mul_left _ hlt
    rw [Nat.mul_succ] at hle
    omega

theorem pageOf_of_bounds (h₁ : frameAddr n ≤ a) (h₂ : a < frameAddr n + PAGE_SIZE) :
    pageOf a = frameAddr n := by
  simp only [pageOf, frameAddr, LOW_MEM, PAGE_SIZE] at *
  omega

theorem pageOf_slot (ha : a ∈ slots i (frameAddr n)) : pageOf a = frameAddr n := by
  obtain ⟨h₁, h₂⟩ := slot_bounds ha
  have hpos := bucketSize_pos i
  exact pageOf_of_bounds h₁ (by omega)

theorem pageOf_frameAddr (n : ℕ) : pageOf (frameAddr n) = frameAddr n :=
  pageOf_of_bounds le_rfl (Nat.lt_add_of_pos_right (by decide))

theorem frameAddr_inj {m : ℕ} (h : frameAddr n = frameAddr m) : n = m := by
  simp only [frameAddr, LOW_MEM, PAGE_SIZE] at h
  omega

theorem pageOf_desc (hd : d ∈ Heap.descsOf (frameAddr n)) : pageOf d = frameAddr n := by
  obtain ⟨k, hk, rfl⟩ := List.mem_range'.mp hd
  refine pageOf_of_bounds (Nat.le_add_right _ _) ?_
  simp only [PAGE_SIZE]
  omega

theorem findBucket_spec (h : findBucket len = some i) : len ≤ bucketSize i := by
  simpa using List.find?_some h

/-! ### The invariant -/

/-- Where a descriptor stands. -/
inductive Place where
  | chain (i : Fin 9)
  | free
  | held
  deriving DecidableEq

/-- A call that sleeps has found its bucket. -/
def Asleep.Found : Asleep → Prop
  | .desc i len => findBucket len = some i
  | .page i len _ => findBucket len = some i

namespace Heap

/-- The descriptors taken by the calls that sleep. -/
def held (h : Heap) : List ℕ := h.asleep.filterMap Asleep.desc?

/-- The number of live objects of a page. -/
def liveOn (h : Heap) (page : ℕ) : ℕ := h.live.countP (pageOf ·.1 = page)

/-- The descriptors are in the lists that `place` says. -/
structure Lists (h : Heap) (place : ℕ → Option Place) : Prop where
  chain : ∀ i, ∃ l, IsList h.next (h.chain i) l ∧ ∀ d, d ∈ l ↔ place d = some (.chain i)
  free : ∃ l, IsList h.next h.freeDesc l ∧ ∀ d, d ∈ l ↔ place d = some .free
  nodup : h.held.Nodup
  held : ∀ d, d ∈ h.held ↔ place d = some .held
  descs : ∀ d, d ∈ h.descs ↔ place d ≠ none
  found : ∀ c ∈ h.asleep, c.Found

/-- A descriptor on a chain: the page, the list of its free objects and the number of others. -/
structure Bucket (h : Heap) (i : Fin 9) (d : ℕ) : Prop where
  frame : ∃ n < h.frames, (h.bdesc d).page = frameAddr n ∧ h.memMap n = 1
  free : ∃ l, IsList h.word (h.bdesc d).freeptr l ∧
    ∀ a ∈ l, a ∈ slots i (h.bdesc d).page ∧ a ∉ h.live.map Prod.fst
  refcnt : (h.bdesc d).refcnt = BitVec.ofNat 16 (h.liveOn (h.bdesc d).page)

/-- What is in the pages. -/
structure Pages (h : Heap) (place : ℕ → Option Place) : Prop where
  bucket : ∀ {d i}, place d = some (.chain i) → h.Bucket i d
  apart : ∀ {d d' i i'}, place d = some (.chain i) → place d' = some (.chain i') →
    (h.bdesc d).page = (h.bdesc d').page → d = d'
  live : ∀ o ∈ h.live, ∃ i d, findBucket o.2 = some i ∧ place d = some (.chain i) ∧
    o.1 ∈ slots i (h.bdesc d).page
  nodup : (h.live.map Prod.fst).Nodup
  nodupGot : h.got.Nodup
  got : ∀ n, n ∈ h.got ↔ ∃ d i, place d = some (.chain i) ∧ (h.bdesc d).page = frameAddr n
  descs : ∀ d ∈ h.descs, ∃ n < h.frames, pageOf d = frameAddr n ∧ frameAddr n ∈ h.descs ∧
    h.memMap n = 1
  -- no page is for objects and for descriptors
  unlike : ∀ d ∈ h.descs, ∀ n ∈ h.got, pageOf d ≠ frameAddr n
  reset : ∀ {d}, place d = some .held → (h.bdesc d).refcnt = 0

/-- The pages of all descriptors but `d` have live objects. -/
def BusyBut (h : Heap) (place : ℕ → Option Place) (d : ℕ) : Prop :=
  ∀ d' i, place d' = some (.chain i) → d' ≠ d → 0 < h.liveOn (h.bdesc d').page

def Busy (h : Heap) (place : ℕ → Option Place) : Prop :=
  ∀ d i, place d = some (.chain i) → 0 < h.liveOn (h.bdesc d).page

def Kept (h : Heap) : Prop := ∃ place, h.Lists place ∧ h.Pages place ∧ h.Busy place

variable {h h' : Heap} {place : ℕ → Option Place}

/-- A descriptor that goes to the place `p`. -/
theorem update_place_iff {p q : Place} (hp : p ≠ q) (hd : place d ≠ some q) (d' : ℕ) :
    update place d (some p) d' = some q ↔ place d' = some q := by
  rw [Function.update_apply]
  split
  case isTrue heq =>
    subst heq
    exact ⟨fun h => absurd (Option.some.inj h) hp, fun h => absurd h hd⟩
  case isFalse => exact Iff.rfl

theorem update_place_self {p : Place} {l : List ℕ} (hl : ∀ x, x ∈ l ↔ place x = some p)
    (d d' : ℕ) : d' ∈ d :: l ↔ update place d (some p) d' = some p := by
  rw [List.mem_cons, hl d', Function.update_apply]
  split
  case isTrue heq => simp [heq]
  case isFalse hne => simp [hne]

theorem update_place_ne_none {p : Place} (hd : place d ≠ none) (d' : ℕ) :
    update place d (some p) d' ≠ none ↔ place d' ≠ none := by
  rw [Function.update_apply]
  split
  case isTrue heq =>
    subst heq
    exact ⟨fun _ => hd, fun _ => Option.some_ne_none p⟩
  case isFalse => exact Iff.rfl

/-- A descriptor that nothing is done with. -/
theorem Bucket.keep (hb : h.Bucket i d) (hframes : h'.frames = h.frames)
    (hdesc : h'.bdesc d = h.bdesc d)
    (hmap : ∀ n, (h.bdesc d).page = frameAddr n → h'.memMap n = h.memMap n)
    (hword : ∀ a ∈ slots i (h.bdesc d).page, a ∉ h.live.map Prod.fst → h'.word a = h.word a)
    (hlive : ∀ a ∈ slots i (h.bdesc d).page, a ∈ h'.live.map Prod.fst → a ∈ h.live.map Prod.fst)
    (hcount : h'.liveOn (h.bdesc d).page = h.liveOn (h.bdesc d).page) : h'.Bucket i d := by
  obtain ⟨n, hn, hpage, hone⟩ := hb.frame
  obtain ⟨l, hl, hmem⟩ := hb.free
  constructor
  · rw [hframes, hdesc]
    exact ⟨n, hn, hpage, (hmap n hpage).trans hone⟩
  · rw [hdesc]
    refine ⟨l, hl.congr fun a ha => hword a (hmem a ha).1 (hmem a ha).2, fun a ha => ?_⟩
    exact ⟨(hmem a ha).1, fun halive => (hmem a ha).2 (hlive a (hmem a ha).1 halive)⟩
  · rw [hdesc, hcount]
    exact hb.refcnt

theorem Bucket.pageOf (hb : h.Bucket i d) (ha : a ∈ slots i (h.bdesc d).page) :
    Malloc.pageOf a = (h.bdesc d).page := by
  obtain ⟨n, -, hpage, -⟩ := hb.frame
  rw [hpage] at ha ⊢
  exact pageOf_slot ha

/-- The first of the free objects. -/
theorem Bucket.front (hb : h.Bucket i d) (hobj : (h.bdesc d).freeptr = some obj) :
    ∃ l, IsList h.word (h.word obj) l ∧ obj ∉ l ∧
      ∀ a ∈ obj :: l, a ∈ slots i (h.bdesc d).page ∧ a ∉ h.live.map Prod.fst := by
  obtain ⟨l, hl, hmem⟩ := hb.free
  have hhead := hl.head?
  rw [hobj] at hhead
  obtain ⟨l, rfl⟩ := List.head?_eq_some_iff.mp hhead.symm
  exact ⟨l, hl.2, (List.nodup_cons.mp hl.nodup).1, hmem⟩

/-- Objects of different descriptors are different. -/
theorem Pages.ne_of_slots (hp : h.Pages place) (hd : place d = some (.chain i))
    (hd' : place d' = some (.chain i')) (hne : d ≠ d') (ha : a ∈ slots i (h.bdesc d).page)
    (ha' : a' ∈ slots i' (h.bdesc d').page) : a ≠ a' := by
  intro heq
  refine hne (hp.apart hd hd' ?_)
  rw [← (hp.bucket hd).pageOf ha, ← (hp.bucket hd').pageOf ha', heq]

/-! ### An object is given out -/

theorem liveOn_allocate (h : Heap) (d len page : ℕ) :
    (h.allocate d len).liveOn page =
      h.liveOn page + if pageOf ((h.bdesc d).freeptr.getD 0) = page then 1 else 0 := by
  simp [liveOn, allocate, List.countP_cons]

theorem Lists.allocate (hl : h.Lists place) (d len : ℕ) : (h.allocate d len).Lists place :=
  ⟨hl.chain, hl.free, hl.nodup, hl.held, hl.descs, hl.found⟩

theorem page_allocate (h : Heap) (d len d' : ℕ) :
    ((h.allocate d len).bdesc d').page = (h.bdesc d').page := by
  simp only [allocate, Function.update_apply]
  split
  case isTrue heq =>
    subst heq
    rfl
  case isFalse => rfl

theorem Pages.allocate (hp : h.Pages place) (hd : place d = some (.chain i))
    (hfree : (h.bdesc d).freeptr ≠ none) (hi : findBucket len = some i) :
    (h.allocate d len).Pages place := by
  obtain ⟨obj, hobj⟩ := Option.ne_none_iff_exists'.mp hfree
  obtain ⟨l, hl, hnot, hmem⟩ := (hp.bucket hd).front hobj
  obtain ⟨hslot, hdead⟩ := hmem obj List.mem_cons_self
  have hlive : (h.allocate d len).live = (obj, len) :: h.live := by
    simp only [Heap.allocate, hobj, Option.getD_some]
  have hdesc : (h.allocate d len).bdesc d = (h.bdesc d).take (h.word obj) := by
    simp only [Heap.allocate, hobj, Option.getD_some, Function.update_self]
  have hpageOf := (hp.bucket hd).pageOf hslot
  constructor
  · intro d' i' hd'
    by_cases heq : d' = d
    · subst heq
      obtain rfl : i = i' := by
        rw [hd] at hd'
        exact Place.chain.inj (Option.some.inj hd')
      refine ⟨?_, ?_, ?_⟩
      · rw [page_allocate]
        exact (hp.bucket hd).frame
      · rw [page_allocate, hdesc, hlive]
        refine ⟨l, hl, fun a ha => ⟨(hmem a (List.mem_cons_of_mem _ ha)).1, ?_⟩⟩
        rw [List.map_cons, List.mem_cons, not_or]
        exact ⟨ne_of_mem_of_not_mem ha hnot, (hmem a (List.mem_cons_of_mem _ ha)).2⟩
      · rw [page_allocate, hdesc, liveOn_allocate, hobj, Option.getD_some, if_pos hpageOf,
          BitVec.ofNat_add, ← (hp.bucket hd).refcnt]
        rfl
    · have hapart : ∀ a ∈ slots i' (h.bdesc d').page, a ≠ obj := fun a ha =>
        hp.ne_of_slots hd' hd heq ha hslot
      refine (hp.bucket hd').keep rfl (Function.update_of_ne heq _ _) (fun _ _ => rfl)
        (fun _ _ _ => rfl) (fun a ha => ?_) ?_
      · rw [hlive, List.map_cons, List.mem_cons]
        exact fun hor => hor.resolve_left (hapart a ha)
      · rw [liveOn_allocate, hobj, Option.getD_some, if_neg, Nat.add_zero]
        rw [hpageOf]
        exact fun hpage => heq (hp.apart hd' hd hpage.symm)
  · intro d' d'' i' i'' hd' hd'' hpage
    rw [page_allocate, page_allocate] at hpage
    exact hp.apart hd' hd'' hpage
  · intro o ho
    rw [hlive] at ho
    obtain rfl | ho := List.mem_cons.mp ho
    · refine ⟨i, d, hi, hd, ?_⟩
      rw [page_allocate]
      exact hslot
    · obtain ⟨i', d', hi', hd', hslot'⟩ := hp.live o ho
      refine ⟨i', d', hi', hd', ?_⟩
      rw [page_allocate]
      exact hslot'
  · rw [hlive]
    exact List.nodup_cons.mpr ⟨hdead, hp.nodup⟩
  · exact hp.nodupGot
  · intro n
    simp only [page_allocate]
    exact hp.got n
  · exact hp.descs
  · exact hp.unlike
  · intro d' hd'
    rw [← hp.reset hd']
    refine congrArg BucketDesc.refcnt (Function.update_of_ne (fun heq => ?_) _ _)
    rw [heq, hd] at hd'
    cases hd'

theorem BusyBut.allocate (hbusy : h.BusyBut place d) (hp : h.Pages place)
    (hd : place d = some (.chain i)) (hfree : (h.bdesc d).freeptr ≠ none) (len : ℕ) :
    (h.allocate d len).Busy place := by
  intro d' i' hd'
  rw [page_allocate, liveOn_allocate]
  by_cases heq : d' = d
  · subst heq
    obtain ⟨obj, hobj⟩ := Option.ne_none_iff_exists'.mp hfree
    obtain ⟨l, -, -, hmem⟩ := (hp.bucket hd).front hobj
    have hslot := (hmem obj List.mem_cons_self).1
    rw [hobj, Option.getD_some, if_pos ((hp.bucket hd).pageOf hslot)]
    exact Nat.succ_pos _
  · exact Nat.add_pos_left (hbusy d' i' hd' heq) _

/-! ### An object is given back -/

/-- The objects are one and those at other addresses. -/
theorem perm_filter {l : List (ℕ × ℕ)} {o : ℕ × ℕ} (hn : (l.map Prod.fst).Nodup) (ho : o ∈ l) :
    (o :: l.filter (·.1 ≠ o.1)).Perm l := by
  induction l with
  | nil => exact absurd ho List.not_mem_nil
  | cons x l ih =>
    obtain ⟨hx, hn⟩ := List.nodup_cons.mp hn
    obtain rfl | ho := List.mem_cons.mp ho
    · have hrest : l.filter (·.1 ≠ o.1) = l := by
        refine List.filter_eq_self.mpr fun y hy => ?_
        have hne : y.1 ≠ o.1 := fun heq => hx (heq ▸ List.mem_map_of_mem hy)
        exact decide_eq_true hne
      rw [List.filter_cons_of_neg (by simp), hrest]
    · have hne : x.1 ≠ o.1 := fun heq => hx (heq ▸ List.mem_map_of_mem ho)
      rw [List.filter_cons_of_pos (by simpa using hne)]
      exact (List.Perm.swap x o _).trans ((ih hn ho).cons x)

theorem liveOn_putObj (hn : (h.live.map Prod.fst).Nodup) (hobj : obj ∈ h.live.map Prod.fst)
    (d page : ℕ) : h.liveOn page =
      (h.putObj d obj).liveOn page + if Malloc.pageOf obj = page then 1 else 0 := by
  obtain ⟨o, ho, rfl⟩ := List.mem_map.mp hobj
  rw [liveOn, ← (perm_filter hn ho).countP_eq, List.countP_cons]
  simp [liveOn, putObj]

theorem Lists.putObj (hl : h.Lists place) (d obj : ℕ) : (h.putObj d obj).Lists place :=
  ⟨hl.chain, hl.free, hl.nodup, hl.held, hl.descs, hl.found⟩

theorem page_putObj (h : Heap) (d obj d' : ℕ) :
    ((h.putObj d obj).bdesc d').page = (h.bdesc d').page := by
  simp only [putObj, Function.update_apply]
  split
  case isTrue heq =>
    subst heq
    rfl
  case isFalse => rfl

theorem mem_putObj {a : ℕ} : a ∈ (h.putObj d obj).live.map Prod.fst ↔
    a ∈ h.live.map Prod.fst ∧ a ≠ obj := by
  simp only [putObj, List.mem_map, List.mem_filter, decide_eq_true_eq]
  constructor
  · rintro ⟨o, ⟨ho, hne⟩, rfl⟩
    exact ⟨⟨o, ho, rfl⟩, hne⟩
  · rintro ⟨⟨o, ho, rfl⟩, hne⟩
    exact ⟨o, ⟨ho, hne⟩, rfl⟩

theorem Pages.putObj (hp : h.Pages place) (hd : place d = some (.chain i))
    (hobj : obj ∈ h.live.map Prod.fst) (hslot : obj ∈ slots i (h.bdesc d).page) :
    (h.putObj d obj).Pages place := by
  have hpageOf := (hp.bucket hd).pageOf hslot
  have hcount := liveOn_putObj hp.nodup hobj d
  constructor
  · intro d' i' hd'
    by_cases heq : d' = d
    · subst heq
      obtain rfl : i = i' := by
        rw [hd] at hd'
        exact Place.chain.inj (Option.some.inj hd')
      have hdesc : (h.putObj d' obj).bdesc d' = (h.bdesc d').giveBack obj :=
        Function.update_self _ _ _
      obtain ⟨l, hl, hmem⟩ := (hp.bucket hd).free
      have hnot : obj ∉ l := fun hin => (hmem obj hin).2 hobj
      refine ⟨?_, ?_, ?_⟩
      · rw [page_putObj]
        exact (hp.bucket hd).frame
      · rw [page_putObj, hdesc]
        refine ⟨obj :: l, ⟨rfl, ?_⟩, fun a ha => ?_⟩
        · show IsList (update h.word obj (h.bdesc d').freeptr)
            (update h.word obj (h.bdesc d').freeptr obj) l
          rw [Function.update_self]
          exact hl.update hnot _
        · rw [mem_putObj]
          obtain rfl | ha := List.mem_cons.mp ha
          · exact ⟨hslot, fun hin => hin.2 rfl⟩
          · exact ⟨(hmem a ha).1, fun hin => (hmem a ha).2 hin.1⟩
      · have hrefcnt := (hp.bucket hd).refcnt
        rw [hcount, if_pos hpageOf, BitVec.ofNat_add] at hrefcnt
        rw [page_putObj, hdesc]
        show (h.bdesc d').refcnt - 1 = _
        rw [hrefcnt]
        exact BitVec.add_sub_cancel _ _
    · have hapart : ∀ a ∈ slots i' (h.bdesc d').page, a ≠ obj := fun a ha =>
        hp.ne_of_slots hd' hd heq ha hslot
      refine (hp.bucket hd').keep rfl (Function.update_of_ne heq _ _) (fun _ _ => rfl)
        (fun a ha _ => Function.update_of_ne (hapart a ha) _ _) (fun a _ => ?_) ?_
      · rw [mem_putObj]
        exact And.left
      · rw [hcount, if_neg, Nat.add_zero]
        rw [hpageOf]
        exact fun hpage => heq (hp.apart hd' hd hpage.symm)
  · intro d' d'' i' i'' hd' hd'' hpage
    rw [page_putObj, page_putObj] at hpage
    exact hp.apart hd' hd'' hpage
  · intro o ho
    obtain ⟨i', d', hi', hd', hslot'⟩ := hp.live o (List.mem_filter.mp ho).1
    refine ⟨i', d', hi', hd', ?_⟩
    rw [page_putObj]
    exact hslot'
  · exact hp.nodup.sublist (List.filter_sublist.map _)
  · exact hp.nodupGot
  · intro n
    simp only [page_putObj]
    exact hp.got n
  · exact hp.descs
  · exact hp.unlike
  · intro d' hd'
    rw [← hp.reset hd']
    refine congrArg BucketDesc.refcnt (Function.update_of_ne (fun heq => ?_) _ _)
    rw [heq, hd] at hd'
    cases hd'

/-- There are at most 256 objects in a page. -/
theorem Pages.liveOn_le (hp : h.Pages place) (hd : place d = some (.chain i)) :
    h.liveOn (h.bdesc d).page ≤ 256 := by
  refine le_trans ?_ (count_le i)
  have hslots : (slots i (h.bdesc d).page).length = PAGE_SIZE / bucketSize i := List.length_range'
  rw [liveOn, List.countP_eq_length_filter, ← hslots, ← List.length_map Prod.fst]
  refine List.Nodup.length_le_of_subset ?_ fun a ha => ?_
  · exact hp.nodup.sublist (List.filter_sublist.map _)
  · obtain ⟨o, ho, rfl⟩ := List.mem_map.mp ha
    obtain ⟨ho, hpage⟩ := List.mem_filter.mp ho
    obtain ⟨i', d', -, hd', hslot⟩ := hp.live o ho
    -- the object is one of the page of its own descriptor
    have hpage' : (h.bdesc d').page = (h.bdesc d).page := by
      rw [← (hp.bucket hd').pageOf hslot]
      exact of_decide_eq_true hpage
    obtain rfl := hp.apart hd' hd hpage'
    rw [hd] at hd'
    obtain rfl := Place.chain.inj (Option.some.inj hd')
    exact hslot

theorem Pages.refcnt_eq (hp : h.Pages place) (hd : place d = some (.chain i)) :
    (h.bdesc d).refcnt.toNat = h.liveOn (h.bdesc d).page := by
  have hle := hp.liveOn_le hd
  rw [(hp.bucket hd).refcnt, BitVec.toNat_ofNat]
  omega

/-! ### A page is given back -/

theorem Lists.length_le (hl : h.Lists place) {start : Option ℕ} {l : List ℕ} {p : Place}
    (hlist : IsList h.next start l) (hmem : ∀ d, d ∈ l ↔ place d = some p) :
    l.length ≤ h.descs.length := by
  refine List.Nodup.length_le_of_subset hlist.nodup fun d hd => (hl.descs d).mpr ?_
  rw [(hmem d).mp hd]
  exact Option.some_ne_none p

theorem findSome?_of_unique {α β : Type} {f : α → Option β} {x : α} {b : β} {l : List α}
    (hx : x ∈ l) (hf : f x = some b) (hother : ∀ y ∈ l, y ≠ x → f y = none) :
    l.findSome? f = some b := by
  induction l with
  | nil => exact absurd hx List.not_mem_nil
  | cons y l ih =>
    rw [List.findSome?_cons]
    by_cases heq : y = x
    · rw [heq, hf]
    · rw [hother y List.mem_cons_self heq]
      exact ih ((List.mem_cons.mp hx).resolve_left (Ne.symm heq)) fun z hz =>
        hother z (List.mem_cons_of_mem _ hz)

/-- `free_s` finds the descriptor of a page. -/
theorem findPage_spec (hl : h.Lists place) (hp : h.Pages place)
    (hd : place d = some (.chain i)) (hsize : size ≤ bucketSize i) :
    ∃ l₁ l₂, IsList h.next (h.chain i) (l₁ ++ d :: l₂) ∧
      (∀ x, x ∈ l₁ ++ d :: l₂ ↔ place x = some (.chain i)) ∧
      h.findPage (h.bdesc d).page size = some (i, l₁.getLast?, d) := by
  obtain ⟨l, hlist, hmem⟩ := hl.chain i
  -- no other descriptor has the page
  have hunique : ∀ {j x}, place x = some (.chain j) → (h.bdesc x).page = (h.bdesc d).page → x = d :=
    fun hx hpage => hp.apart hx hd hpage
  obtain ⟨l₁, x, l₂, rfl, hx, hbefore, hfind⟩ | ⟨hnone, -⟩ :=
    Links.findFrom_spec (p := fun x => (h.bdesc x).page = (h.bdesc d).page) (b := none) hlist
      (hl.length_le hlist hmem)
  · obtain rfl : x = d := hunique ((hmem x).mp (by simp)) (of_decide_eq_true hx)
    refine ⟨l₁, l₂, hlist, hmem, findSome?_of_unique (List.mem_finRange i) ?_ fun j _ hj => ?_⟩
    · rw [if_neg (Nat.not_lt.mpr hsize), hfind, Option.or_none]
      rfl
    · split
      case isTrue => rfl
      case isFalse =>
        obtain ⟨l', hlist', hmem'⟩ := hl.chain j
        rw [Links.findFrom_none hlist', Option.map_none]
        intro y hy
        refine decide_eq_false fun hpage => hj ?_
        -- it would be on two chains
        have hy' := (hmem' y).mp hy
        rw [hunique hy' hpage, hd] at hy'
        exact (Place.chain.inj (Option.some.inj hy')).symm
  · exact absurd rfl (of_decide_eq_false (hnone d ((hmem d).mpr hd)))

theorem checkPrev_eq {l₁ l₂ : List ℕ} (hlist : IsList h.next (h.chain i) (l₁ ++ d :: l₂)) :
    h.checkPrev i d l₁.getLast? = l₁.getLast? := by
  obtain ⟨c, h₁, rfl, -⟩ := Links.Seg.append_iff.mp hlist
  rcases List.eq_nil_or_concat l₁ with rfl | ⟨l₀, p, rfl⟩
  · exact if_neg (not_not_intro h₁)
  · rw [List.concat_eq_append] at *
    obtain ⟨c, -, rfl, hnext⟩ := Links.Seg.append_iff.mp h₁
    rw [List.getLast?_concat]
    exact if_neg (not_not_intro hnext)

theorem unlink_spec {l₁ l₂ : List ℕ} (hlist : IsList h.next (h.chain i) (l₁ ++ d :: l₂)) :
    ∃ next chain, h.unlink i d l₁.getLast? = .ok { h with next := next, chain := chain } ∧
      IsList next (chain i) (l₁ ++ l₂) ∧ (∀ j, j ≠ i → chain j = h.chain j) ∧
      ∀ x ∉ l₁, next x = h.next x := by
  rcases List.eq_nil_or_concat l₁ with rfl | ⟨l₀, p, rfl⟩
  · refine ⟨h.next, update h.chain i (h.next d), ?_, ?_, fun j hj => Function.update_of_ne hj _ _,
      fun _ _ => rfl⟩
    · exact if_neg (not_not_intro hlist.1)
    · rw [Function.update_self]
      exact hlist.2
  · rw [List.concat_eq_append] at *
    refine ⟨update h.next p (h.next d), h.chain, ?_, ?_, fun _ _ => rfl, fun x hx => ?_⟩
    · rw [List.getLast?_concat]
      rfl
    · rw [List.append_assoc] at hlist ⊢
      exact hlist.unlink
    · exact Function.update_of_ne (fun heq => hx (by simp [heq])) _ _

theorem freePage_spec (hpage : page = frameAddr n) (hn : n < h.frames) (hone : h.memMap n = 1) :
    h.freePage page =
      .ok { h with memMap := update h.memMap n 0, got := h.got.erase n } := by
  have hlow : ¬ frameAddr n < LOW_MEM := Nat.not_lt.mpr (Nat.le_add_right _ _)
  have hhigh : ¬ LOW_MEM + h.frames * PAGE_SIZE ≤ frameAddr n := by
    simp only [frameAddr, PAGE_SIZE]
    omega
  have hnr : (frameAddr n - LOW_MEM) / PAGE_SIZE = n := by
    simp only [frameAddr, PAGE_SIZE]
    omega
  rw [hpage, freePage, if_neg hlow, if_neg hhigh]
  simp only [hnr, hone]
  rfl

/-- The heap after the page `n` of the descriptor `d` is given back. -/
theorem Lists.release (hl : h.Lists place) {l₁ l₂ : List ℕ} {next : ℕ → Option ℕ}
    {chain : Fin 9 → Option ℕ} (hd : place d = some (.chain i))
    (hlist : IsList h.next (h.chain i) (l₁ ++ d :: l₂))
    (hmem : ∀ x, x ∈ l₁ ++ d :: l₂ ↔ place x = some (.chain i))
    (hrest : IsList next (chain i) (l₁ ++ l₂)) (hchain : ∀ j, j ≠ i → chain j = h.chain j)
    (hnext : ∀ x ∉ l₁, next x = h.next x) (n : ℕ) :
    ({ h with
      next := next
      chain := chain
      memMap := update h.memMap n 0
      got := h.got.erase n }.putDesc d).Lists (update place d (some .free)) := by
  have hnodup := hlist.nodup
  have hd₁₂ : d ∉ l₁ ++ l₂ := by
    rw [List.nodup_append, List.nodup_cons] at hnodup
    obtain ⟨-, ⟨hd₂, -⟩, hdisj⟩ := hnodup
    rw [List.mem_append, not_or]
    exact ⟨fun hin => hdisj d hin d List.mem_cons_self rfl, hd₂⟩
  -- a list that `d` is not in, and none of the chain, is as before
  have hother : ∀ {a l p}, IsList h.next a l → (∀ x, x ∈ l ↔ place x = some p) →
      p ≠ .chain i → IsList (update next d h.freeDesc) a l := by
    intro a l p hold hmem' hp
    refine hold.congr fun x hx => ?_
    have hplace := (hmem' x).mp hx
    have hnot : x ∉ l₁ ++ d :: l₂ := fun hin => by
      rw [hmem x, hplace] at hin
      exact hp (Option.some.inj hin)
    simp only [List.mem_append, List.mem_cons, not_or] at hnot
    rw [Function.update_of_ne hnot.2.1]
    exact hnext x hnot.1
  constructor
  · intro j
    by_cases hj : j = i
    · subst hj
      refine ⟨l₁ ++ l₂, hrest.update hd₁₂ _, fun x => ?_⟩
      rw [Function.update_apply]
      split
      case isTrue heq =>
        subst heq
        exact ⟨fun hin => absurd hin hd₁₂, nofun⟩
      case isFalse hne =>
        rw [← hmem x]
        simp [hne]
    · obtain ⟨l, hold, hmem'⟩ := hl.chain j
      have hp : Place.chain j ≠ .chain i := fun heq => hj (Place.chain.inj heq)
      have hd' : place d ≠ some (.chain j) := fun heq =>
        hp (Option.some.inj (heq.symm.trans hd))
      refine ⟨l, ?_, fun x => (hmem' x).trans (update_place_iff (by nofun) hd' x).symm⟩
      show IsList (update next d h.freeDesc) (chain j) l
      rw [hchain j hj]
      exact hother hold hmem' hp
  · obtain ⟨l, hold, hmem'⟩ := hl.free
    refine ⟨d :: l, ⟨rfl, ?_⟩, update_place_self hmem' d⟩
    show IsList (update next d h.freeDesc) (update next d h.freeDesc d) l
    rw [Function.update_self]
    exact hother hold hmem' nofun
  · exact hl.nodup
  · have hd' : place d ≠ some .held := by
      rw [hd]
      exact nofun
    exact fun x => (hl.held x).trans (update_place_iff (by nofun) hd' x).symm
  · have hd' : place d ≠ none := by
      rw [hd]
      exact nofun
    exact fun x => (hl.descs x).trans (update_place_ne_none hd' x).symm
  · exact hl.found

theorem Pages.release (hp : h.Pages place) (hd : place d = some (.chain i))
    (hpage : (h.bdesc d).page = frameAddr n) (hzero : h.liveOn (h.bdesc d).page = 0)
    (next : ℕ → Option ℕ) (chain : Fin 9 → Option ℕ) :
    ({ h with
      next := next
      chain := chain
      memMap := update h.memMap n 0
      got := h.got.erase n }.putDesc d).Pages (update place d (some .free)) := by
  have hchain : ∀ {d' j}, update place d (some .free) d' = some (.chain j) →
      d' ≠ d ∧ place d' = some (.chain j) := by
    intro d' j hd'
    rw [Function.update_apply] at hd'
    split at hd'
    case isTrue => cases hd'
    case isFalse hne => exact ⟨hne, hd'⟩
  have hgot : n ∈ h.got := (hp.got n).mpr ⟨d, i, hd, hpage⟩
  constructor
  · intro d' j hd'
    obtain ⟨hne, hd'⟩ := hchain hd'
    refine (hp.bucket hd').keep rfl rfl (fun n' hn' => ?_) (fun _ _ _ => rfl) (fun _ _ => id) rfl
    refine Function.update_of_ne (fun heq => hne (hp.apart hd' hd ?_)) _ _
    rw [hn', heq, hpage]
  · intro d' d'' j j' hd' hd'' heq
    exact hp.apart (hchain hd').2 (hchain hd'').2 heq
  · intro o ho
    obtain ⟨j, d', hj, hd', hslot⟩ := hp.live o ho
    refine ⟨j, d', hj, ?_, hslot⟩
    rw [Function.update_of_ne, hd']
    -- the page of `d` has no objects
    rintro rfl
    have hnone := List.countP_eq_zero.mp hzero o ho
    rw [(hp.bucket hd').pageOf hslot] at hnone
    exact hnone (decide_eq_true rfl)
  · exact hp.nodup
  · exact hp.nodupGot.erase n
  · intro n'
    show n' ∈ h.got.erase n ↔ _
    rw [hp.nodupGot.mem_erase_iff, hp.got n']
    constructor
    · rintro ⟨hne, d', j, hd', hpage'⟩
      refine ⟨d', j, ?_, hpage'⟩
      rw [Function.update_of_ne, hd']
      rintro rfl
      exact hne (frameAddr_inj (hpage'.symm.trans hpage))
    · rintro ⟨d', j, hd', hpage'⟩
      obtain ⟨hne, hd'⟩ := hchain hd'
      refine ⟨fun heq => hne (hp.apart hd' hd ?_), d', j, hd', hpage'⟩
      rw [hpage, ← heq]
      exact hpage'
  · intro d' hd'
    obtain ⟨n', hn', hpage', hmem, hone⟩ := hp.descs d' hd'
    refine ⟨n', hn', hpage', hmem, ?_⟩
    refine (Function.update_of_ne (fun heq => ?_) _ _).trans hone
    rw [heq] at hpage'
    exact hp.unlike d' hd' n hgot hpage'
  · exact fun d' hd' n' hn' => hp.unlike d' hd' n' (List.mem_of_mem_erase hn')
  · intro d' hd'
    refine hp.reset (d := d') ?_
    rw [Function.update_apply] at hd'
    split at hd'
    case isTrue => cases hd'
    case isFalse => exact hd'

/-! ### `malloc` -/

theorem Lists.takeDesc (hl : h.Lists place) (hfree : h.freeDesc = some d)
    (hi : findBucket len = some i) :
    place d = some .free ∧ (h.takeDesc i len).Lists (update place d (some .held)) := by
  obtain ⟨l, hlist, hmem⟩ := hl.free
  -- the descriptor is the first of the free ones
  obtain ⟨l, rfl⟩ : ∃ l', l = d :: l' := by
    have hhead := hlist.head?
    rw [hfree] at hhead
    exact List.head?_eq_some_iff.mp hhead.symm
  have hd : place d = some .free := (hmem d).mp List.mem_cons_self
  have hne : ∀ p, p ≠ .free → place d ≠ some p := fun p hp heq =>
    hp (Option.some.inj (heq.symm.trans hd))
  have hnot : d ∉ l := (List.nodup_cons.mp hlist.nodup).1
  have hasleep : (h.takeDesc i len).asleep = .page i len d :: h.asleep := by
    simp only [Heap.takeDesc, hfree, Option.getD_some]
  have hheld : (h.takeDesc i len).held = d :: h.held := by
    rw [Heap.held, hasleep]
    rfl
  refine ⟨hd, fun j => ?_, ⟨l, ?_, fun x => ?_⟩, ?_, ?_, ?_, ?_⟩
  · obtain ⟨l', hlist', hmem'⟩ := hl.chain j
    exact ⟨l', hlist', fun x => (hmem' x).trans
      (update_place_iff (by nofun) (hne (.chain j) nofun) x).symm⟩
  · simp only [Heap.takeDesc, hfree, Option.getD_some]
    exact hlist.2
  · rw [Function.update_apply]
    split
    case isTrue heq =>
      subst heq
      exact ⟨fun hin => absurd hin hnot, nofun⟩
    case isFalse hx =>
      rw [← hmem x]
      simp [hx]
  · rw [hheld]
    refine List.nodup_cons.mpr ⟨fun hin => ?_, hl.nodup⟩
    exact hne .held nofun ((hl.held d).mp hin)
  · rw [hheld]
    exact update_place_self hl.held d
  · have hsome : place d ≠ none := by
      rw [hd]
      exact nofun
    exact fun x => (hl.descs x).trans (update_place_ne_none hsome x).symm
  · rw [hasleep]
    exact fun c hc => (List.mem_cons.mp hc).elim (fun heq => heq ▸ hi) (hl.found c)

/-- What is not done to the pages of objects. -/
theorem Pages.keep {place' : ℕ → Option Place} (hp : h.Pages place)
    (hplace : ∀ d i, place' d = some (.chain i) ↔ place d = some (.chain i))
    (hframes : h'.frames = h.frames) (hlive : h'.live = h.live) (hgot : h'.got = h.got)
    (hbdesc : ∀ d i, place d = some (.chain i) → h'.bdesc d = h.bdesc d)
    (hword : ∀ n ∈ h.got, ∀ a, Malloc.pageOf a = frameAddr n → h'.word a ≠ h.word a →
      ∃ o ∈ h.live, o.1 ≤ a ∧ a < o.1 + o.2)
    (hmap : ∀ n ∈ h.got, h'.memMap n = h.memMap n)
    (hdescs : ∀ d ∈ h'.descs, ∃ n < h.frames, Malloc.pageOf d = frameAddr n ∧
      frameAddr n ∈ h'.descs ∧ h'.memMap n = 1 ∧ n ∉ h.got)
    (hreset : ∀ d, place' d = some .held → (h'.bdesc d).refcnt = 0) : h'.Pages place' := by
  constructor
  · intro d i hd
    have hd := (hplace d i).mp hd
    refine (hp.bucket hd).keep hframes (hbdesc d i hd) (fun n hn => ?_) (fun a ha hdead => ?_)
      (fun _ _ => ?_) ?_
    · exact hmap n ((hp.got n).mpr ⟨d, i, hd, hn⟩)
    · -- the word of a free object is in no live one
      by_contra hne
      obtain ⟨n, -, hpage, -⟩ := (hp.bucket hd).frame
      obtain ⟨o, ho, hle, hlt⟩ := hword n ((hp.got n).mpr ⟨d, i, hd, hpage⟩) a
        (((hp.bucket hd).pageOf ha).trans hpage) hne
      obtain ⟨j, d', hj, hd', hslot⟩ := hp.live o ho
      have hlen := findBucket_spec hj
      obtain ⟨m, -, hpage', -⟩ := (hp.bucket hd').frame
      have hsame : (h.bdesc d').page = (h.bdesc d).page := by
        obtain ⟨hstart, hend⟩ := slot_bounds hslot
        rw [← (hp.bucket hd).pageOf ha, hpage']
        rw [hpage'] at hstart hend
        exact (pageOf_of_bounds (by omega) (by omega)).symm
      obtain rfl := hp.apart hd' hd hsame
      rw [hd] at hd'
      obtain rfl := Place.chain.inj (Option.some.inj hd')
      have hsep : o.1 ≠ a := fun heq => hdead (heq ▸ List.mem_map_of_mem ho)
      have hapart := slot_apart hslot ha hsep
      omega
    · rw [hlive]
      exact id
    · rw [liveOn, hlive]
      rfl
  · intro d d' i i' hd hd' hpage
    have hd := (hplace d i).mp hd
    have hd' := (hplace d' i').mp hd'
    rw [hbdesc d i hd, hbdesc d' i' hd'] at hpage
    exact hp.apart hd hd' hpage
  · rw [hlive]
    intro o ho
    obtain ⟨i, d, hi, hd, hslot⟩ := hp.live o ho
    refine ⟨i, d, hi, (hplace d i).mpr hd, ?_⟩
    rw [hbdesc d i hd]
    exact hslot
  · rw [hlive]
    exact hp.nodup
  · rw [hgot]
    exact hp.nodupGot
  · intro n
    rw [hgot, hp.got n]
    constructor
    · rintro ⟨d, i, hd, hpage⟩
      refine ⟨d, i, (hplace d i).mpr hd, ?_⟩
      rw [hbdesc d i hd]
      exact hpage
    · rintro ⟨d, i, hd, hpage⟩
      have hd := (hplace d i).mp hd
      rw [hbdesc d i hd] at hpage
      exact ⟨d, i, hd, hpage⟩
  · intro d hd
    obtain ⟨n, hn, hpage, hmem, hone, -⟩ := hdescs d hd
    rw [hframes]
    exact ⟨n, hn, hpage, hmem, hone⟩
  · intro d hd n hn heq
    obtain ⟨m, -, hpage, -, -, hm⟩ := hdescs d hd
    obtain rfl := frameAddr_inj (heq.symm.trans hpage)
    rw [hgot] at hn
    exact hm hn
  · exact fun {d} hd => hreset d hd

theorem Pages.takeDesc (hp : h.Pages place) (hfree : h.freeDesc = some d)
    (hd : place d = some .free) (i : Fin 9) (len : ℕ) :
    (h.takeDesc i len).Pages (update place d (some .held)) := by
  have hplace : ∀ d' j, update place d (some .held) d' = some (.chain j) ↔
      place d' = some (.chain j) := by
    have hd' : ∀ j, place d ≠ some (.chain j) := fun j => by
      rw [hd]
      exact nofun
    exact fun d' j => update_place_iff (by nofun) (hd' j) d'
  have hbdesc : ∀ d' ≠ d, (h.takeDesc i len).bdesc d' = h.bdesc d' := by
    intro d' hne
    simp only [Heap.takeDesc, hfree, Option.getD_some]
    exact Function.update_of_ne hne _ _
  refine hp.keep hplace rfl rfl rfl (fun d' j hd' => hbdesc d' fun heq => ?_)
    (fun _ _ _ _ hne => absurd rfl hne) (fun _ _ => rfl) (fun d' hd' => ?_) fun d' hd' => ?_
  · rw [heq, hd] at hd'
    cases hd'
  · obtain ⟨n, hn, hpage, hmem, hone⟩ := hp.descs d' hd'
    exact ⟨n, hn, hpage, hmem, hone, fun hgot => hp.unlike d' hd' n hgot hpage⟩
  · by_cases heq : d' = d
    · subst heq
      simp only [Heap.takeDesc, hfree, Option.getD_some, Function.update_self]
      rfl
    · rw [Function.update_of_ne heq] at hd'
      rw [hbdesc d' heq]
      exact hp.reset hd'

/-- The call `c` no longer sleeps. -/
theorem held_erase {k : ℕ} {c : Asleep} (hk : h.asleep[k]? = some c) :
    ((c :: h.asleep.eraseIdx k).filterMap Asleep.desc?).Perm h.held := by
  obtain ⟨hlt, rfl⟩ := List.getElem?_eq_some_iff.mp hk
  exact (List.getElem_cons_eraseIdx_perm hlt).filterMap _

theorem next_initBucketDesc (h : Heap) (first : ℕ) :
    (h.initBucketDesc first).next = thread 16 h.freeDesc 255 first h.next := by
  rw [Heap.initBucketDesc]

theorem Lists.not_new (hl : h.Lists place) {new : List ℕ} (hnew : ∀ x ∈ new, x ∉ h.descs)
    {p : Place} {x : ℕ} (hx : place x = some p) : x ∉ new := by
  intro hin
  refine hnew x hin ((hl.descs x).mpr ?_)
  rw [hx]
  exact Option.some_ne_none p

theorem Lists.new_iff (hl : h.Lists place) {new : List ℕ} (hnew : ∀ x ∈ new, x ∉ h.descs)
    {p : Place} {x : ℕ} (hp : p ≠ .free) :
    place x = some p ↔ (if x ∈ new then some .free else place x) = some p := by
  split
  case isTrue hin =>
    exact ⟨fun hx => absurd hin (hl.not_new hnew hx),
      fun heq => absurd (Option.some.inj heq).symm hp⟩
  case isFalse => exact Iff.rfl

/-- A new page of descriptors. -/
theorem Lists.initBucketDesc (hl : h.Lists place) {k : ℕ} {first : ℕ}
    (hk : h.asleep[k]? = some (.desc i len)) (hnew : ∀ x ∈ descsOf first, x ∉ h.descs) (n : ℕ) :
    ((({ h with asleep := h.asleep.eraseIdx k } : Heap).getFreePage n).initBucketDesc first).Lists
      fun x => if x ∈ descsOf first then some .free else place x := by
  have hheld : ((h.asleep.eraseIdx k).filterMap Asleep.desc?).Perm h.held := held_erase hk
  have hplace : ∀ {p x}, place x = some p → x ∉ descsOf first := hl.not_new hnew
  have hsame : ∀ {p x}, p ≠ .free →
      (place x = some p ↔ (if x ∈ descsOf first then some .free else place x) = some p) :=
    fun hp => hl.new_iff hnew hp
  have hnext : ∀ {a : Option ℕ} {l p}, IsList h.next a l → (∀ x, x ∈ l ↔ place x = some p) →
      IsList (thread 16 h.freeDesc 255 first h.next) a l := fun hlist hmem =>
    hlist.congr fun x hx => Links.thread_of_not_mem (hplace ((hmem x).mp hx))
  refine ⟨fun j => ?_, ?_, ?_, fun x => ?_, fun x => ?_, fun c hc => ?_⟩
  · obtain ⟨l, hlist, hmem⟩ := hl.chain j
    refine ⟨l, ?_, fun x => (hmem x).trans (hsame (by nofun))⟩
    rw [next_initBucketDesc]
    exact hnext hlist hmem
  · obtain ⟨l, hlist, hmem⟩ := hl.free
    refine ⟨descsOf first ++ l, ?_, fun x => ?_⟩
    · rw [next_initBucketDesc]
      exact Links.thread_list (by decide) hlist fun x hx => hplace ((hmem x).mp hx)
    · rw [List.mem_append, hmem x]
      split
      case isTrue hin => simp [hin]
      case isFalse hin => simp [hin]
  · exact hheld.nodup_iff.mpr hl.nodup
  · exact (hheld.mem_iff.trans (hl.held x)).trans (hsame (by nofun))
  · show x ∈ descsOf first ++ h.descs ↔ _
    rw [List.mem_append, hl.descs x]
    split
    case isTrue hin => simp [hin]
    case isFalse hin => simp [hin]
  · exact hl.found c (List.mem_of_mem_eraseIdx hc)

/-- A page that `get_free_page` finds is none of the allocator's. -/
theorem Pages.not_got (hp : h.Pages place) (hzero : h.memMap n = 0) : n ∉ h.got := by
  intro hn
  obtain ⟨d, i, hd, hpage⟩ := (hp.got n).mp hn
  obtain ⟨m, -, hpage', hone⟩ := (hp.bucket hd).frame
  obtain rfl := frameAddr_inj (hpage.symm.trans hpage')
  rw [hzero] at hone
  exact absurd hone (by decide)

theorem Pages.not_desc (hp : h.Pages place) (hzero : h.memMap n = 0) (hd : d ∈ h.descs) :
    Malloc.pageOf d ≠ frameAddr n := by
  intro heq
  obtain ⟨m, -, hpage, -, hone⟩ := hp.descs d hd
  obtain rfl := frameAddr_inj (heq.symm.trans hpage)
  rw [hzero] at hone
  exact absurd hone (by decide)

theorem Pages.new_desc (hp : h.Pages place) (hzero : h.memMap n = 0) :
    ∀ x ∈ descsOf (frameAddr n), x ∉ h.descs := fun _ hx hin =>
  hp.not_desc hzero hin (pageOf_desc hx)

theorem Pages.initBucketDesc (hp : h.Pages place) (hl : h.Lists place) (hn : n < h.frames)
    (hzero : h.memMap n = 0) (k : ℕ) :
    ((({ h with asleep := h.asleep.eraseIdx k } : Heap).getFreePage n).initBucketDesc
      (frameAddr n)).Pages
        fun x => if x ∈ descsOf (frameAddr n) then some .free else place x := by
  have hnew := hp.new_desc hzero
  have hgot := hp.not_got hzero
  refine hp.keep (fun d j => (hl.new_iff hnew (by nofun)).symm) rfl rfl rfl (fun d j hd => ?_)
    (fun m hm a ha hne => ?_) (fun m hm => ?_) (fun d hd => ?_) fun d hd => ?_
  · exact if_neg (hl.not_new hnew hd)
  · refine absurd (if_neg ?_) hne
    rw [ha]
    intro heq
    rw [frameAddr_inj heq] at hm
    exact hgot hm
  · exact Function.update_of_ne (ne_of_mem_of_not_mem hm hgot) _ _
  · obtain hd | hd := List.mem_append.mp hd
    · have hfirst : frameAddr n ∈ descsOf (frameAddr n) := List.mem_range'.mpr ⟨0, by decide, rfl⟩
      exact ⟨n, hn, pageOf_desc hd, List.mem_append_left _ hfirst, Function.update_self _ _ _, hgot⟩
    · obtain ⟨m, hm, hpage, hmem, hone⟩ := hp.descs d hd
      refine ⟨m, hm, hpage, List.mem_append_right _ hmem, ?_,
        fun hin => hp.unlike d hd m hin hpage⟩
      refine (Function.update_of_ne (fun heq => ?_) _ _).trans hone
      exact hp.not_desc hzero hd (heq ▸ hpage)
  · have hheld := (hl.new_iff hnew (by nofun)).mpr hd
    exact (congrArg BucketDesc.refcnt (if_neg (hl.not_new hnew hheld))).trans (hp.reset hheld)

/-- The descriptor that a call has taken is put in front of its chain. -/
theorem Lists.setUp (hl : h.Lists place) {k : ℕ} (hk : h.asleep[k]? = some (.page i len d))
    (n page : ℕ) (got : List ℕ) :
    place d = some .held ∧
    ({ (({ h with asleep := h.asleep.eraseIdx k } : Heap).getFreePage n).setUp i d page with
      got := got } : Heap).Lists (update place d (some (.chain i))) := by
  have hheld : (d :: (h.asleep.eraseIdx k).filterMap Asleep.desc?).Perm h.held := held_erase hk
  have hd : place d = some .held := (hl.held d).mp (hheld.subset List.mem_cons_self)
  have hne : ∀ p, p ≠ .held → place d ≠ some p := fun p hp heq =>
    hp (Option.some.inj (heq.symm.trans hd))
  have hnodup := List.nodup_cons.mp (hheld.nodup_iff.mpr hl.nodup)
  have hnext : ∀ {a : Option ℕ} {l p}, IsList h.next a l → (∀ x, x ∈ l ↔ place x = some p) →
      p ≠ .held → IsList (update h.next d (h.chain i)) a l := fun hlist hmem hp =>
    hlist.update (fun hin => hne _ hp ((hmem d).mp hin)) _
  refine ⟨hd, fun j => ?_, ?_, hnodup.2, fun x => ?_, fun x => ?_, fun c hc => ?_⟩
  · obtain ⟨l, hlist, hmem⟩ := hl.chain j
    by_cases hj : j = i
    · subst hj
      refine ⟨d :: l, ⟨Function.update_self _ _ _, ?_⟩, update_place_self hmem d⟩
      show IsList (update h.next d (h.chain j)) (update h.next d (h.chain j) d) l
      rw [Function.update_self]
      exact hnext hlist hmem (by nofun)
    · have hp : Place.chain i ≠ .chain j := fun heq => hj (Place.chain.inj heq).symm
      refine ⟨l, ?_, fun x => (hmem x).trans
        (update_place_iff hp (hne (.chain j) nofun) x).symm⟩
      show IsList (update h.next d (h.chain i)) (update h.chain i (some d) j) l
      rw [Function.update_of_ne hj]
      exact hnext hlist hmem (by nofun)
  · obtain ⟨l, hlist, hmem⟩ := hl.free
    exact ⟨l, hnext hlist hmem (by nofun), fun x => (hmem x).trans
      (update_place_iff (by nofun) (hne .free nofun) x).symm⟩
  · rw [Function.update_apply]
    split
    case isTrue heq =>
      subst heq
      exact ⟨fun hin => absurd hin hnodup.1, nofun⟩
    case isFalse hx =>
      rw [← hl.held x, ← hheld.mem_iff, List.mem_cons]
      exact (or_iff_right hx).symm
  · have hsome : place d ≠ none := by
      rw [hd]
      exact nofun
    exact (hl.descs x).trans (update_place_ne_none hsome x).symm
  · exact hl.found c (List.mem_of_mem_eraseIdx hc)

section SetUp

variable {k : ℕ}

/-- The heap in which the page `n` of the descriptor `d` is set up. -/
def withPage (h : Heap) (k n : ℕ) (i : Fin 9) (d : ℕ) : Heap :=
  { (({ h with asleep := h.asleep.eraseIdx k } : Heap).getFreePage n).setUp i d (frameAddr n) with
    got := n :: h.got }

theorem word_withPage (h : Heap) (k n : ℕ) (i : Fin 9) (d : ℕ) :
    (h.withPage k n i d).word =
      thread (bucketSize i) none (PAGE_SIZE / bucketSize i - 1) (frameAddr n)
        fun a => if Malloc.pageOf a = frameAddr n then none else h.word a := by
  rw [withPage, Heap.setUp, getFreePage]

theorem bdesc_withPage (h : Heap) (k n : ℕ) (i : Fin 9) (hne : d' ≠ d) :
    (h.withPage k n i d).bdesc d' = h.bdesc d' := Function.update_of_ne hne _ _

theorem bdesc_withPage_self (h : Heap) (k n : ℕ) (i : Fin 9) (d : ℕ) :
    (h.withPage k n i d).bdesc d = (h.bdesc d).setPage (frameAddr n) := Function.update_self _ _ _

theorem slots_eq (i : Fin 9) (page : ℕ) : slots i page =
    List.range' page (PAGE_SIZE / bucketSize i - 1 + 1) (bucketSize i) := by
  have hpos : 0 < PAGE_SIZE / bucketSize i := by
    revert i
    decide
  rw [Nat.sub_add_cancel hpos, slots]

/-- The pages of the live objects are other pages. -/
theorem Pages.not_live (hp : h.Pages place) (hgot : n ∉ h.got) :
    ∀ o ∈ h.live, Malloc.pageOf o.1 ≠ frameAddr n := by
  intro o ho heq
  obtain ⟨i, d, -, hd, hslot⟩ := hp.live o ho
  rw [(hp.bucket hd).pageOf hslot] at heq
  exact hgot ((hp.got n).mpr ⟨d, i, hd, heq⟩)

theorem Pages.withPage (hp : h.Pages place) (hd : place d = some .held) (hn : n < h.frames)
    (hzero : h.memMap n = 0) (k : ℕ) (i : Fin 9) :
    (h.withPage k n i d).Pages (update place d (some (.chain i))) := by
  have hgot := hp.not_got hzero
  have hlive := hp.not_live hgot
  have hchain : ∀ {d' j}, update place d (some (.chain i)) d' = some (.chain j) →
      d' = d ∧ j = i ∨ d' ≠ d ∧ place d' = some (.chain j) := by
    intro d' j hd'
    rw [Function.update_apply] at hd'
    split at hd'
    case isTrue heq => exact .inl ⟨heq, (Place.chain.inj (Option.some.inj hd')).symm⟩
    case isFalse hne => exact .inr ⟨hne, hd'⟩
  have hother : ∀ {d' j}, place d' = some (.chain j) → d' ≠ d := by
    rintro d' j hd' rfl
    rw [hd] at hd'
    cases hd'
  -- the page is none of those of the other descriptors
  have hpage : ∀ {d' j}, place d' = some (.chain j) → (h.bdesc d').page ≠ frameAddr n :=
    fun hd' heq => hgot ((hp.got n).mpr ⟨_, _, hd', heq⟩)
  constructor
  · intro d' j hd'
    obtain ⟨rfl, rfl⟩ | ⟨hne, hd'⟩ := hchain hd'
    · refine ⟨?_, ?_, ?_⟩
      · rw [bdesc_withPage_self]
        exact ⟨n, hn, rfl, Function.update_self _ _ _⟩
      · rw [bdesc_withPage_self, word_withPage]
        refine ⟨slots j (frameAddr n), ?_, fun a ha => ⟨ha, fun hin => ?_⟩⟩
        · rw [slots_eq, ← List.append_nil (List.range' _ _ _)]
          exact Links.thread_list (bucketSize_pos j) rfl nofun
        · obtain ⟨o, ho, rfl⟩ := List.mem_map.mp hin
          exact hlive o ho (pageOf_slot ha)
      · have hnone : h.liveOn (frameAddr n) = 0 := by
          refine List.countP_eq_zero.mpr fun o ho => ?_
          rw [decide_eq_true_eq]
          exact hlive o ho
        rw [bdesc_withPage_self]
        show (h.bdesc d').refcnt = BitVec.ofNat 16 (h.liveOn (frameAddr n))
        rw [hnone, hp.reset hd]
        rfl
    · refine (hp.bucket hd').keep rfl (bdesc_withPage h k n i hne) (fun m hm => ?_)
        (fun a ha _ => ?_) (fun _ _ => id) rfl
      · exact Function.update_of_ne (fun heq => hpage hd' (hm.trans (congrArg frameAddr heq))) _ _
      · have hpageOf : Malloc.pageOf a ≠ frameAddr n := by
          rw [(hp.bucket hd').pageOf ha]
          exact hpage hd'
        rw [word_withPage, Links.thread_of_not_mem, if_neg hpageOf]
        rw [← slots_eq]
        exact fun hin => hpageOf (pageOf_slot hin)
  · intro d' d'' j j' hd' hd'' heq
    obtain ⟨rfl, rfl⟩ | ⟨hne, hd'⟩ := hchain hd'
    · obtain ⟨rfl, rfl⟩ | ⟨hne', hd''⟩ := hchain hd''
      · rfl
      · rw [bdesc_withPage_self, bdesc_withPage h k n _ hne'] at heq
        exact absurd heq.symm (hpage hd'')
    · obtain ⟨heq', -⟩ | ⟨hne', hd''⟩ := hchain hd''
      · rw [heq', bdesc_withPage_self, bdesc_withPage h k n _ hne] at heq
        exact absurd heq (hpage hd')
      · rw [bdesc_withPage h k n i hne, bdesc_withPage h k n i hne'] at heq
        exact hp.apart hd' hd'' heq
  · intro o ho
    obtain ⟨j, d', hj, hd', hslot⟩ := hp.live o ho
    have hne := hother hd'
    refine ⟨j, d', hj, (Function.update_of_ne hne _ _).trans hd', ?_⟩
    rw [bdesc_withPage h k n i hne]
    exact hslot
  · exact hp.nodup
  · exact List.nodup_cons.mpr ⟨hgot, hp.nodupGot⟩
  · intro m
    show m ∈ n :: h.got ↔ _
    rw [List.mem_cons, hp.got m]
    constructor
    · rintro (rfl | ⟨d', j, hd', hm⟩)
      · refine ⟨d, i, Function.update_self _ _ _, ?_⟩
        rw [bdesc_withPage_self]
        rfl
      · have hne := hother hd'
        refine ⟨d', j, (Function.update_of_ne hne _ _).trans hd', ?_⟩
        rw [bdesc_withPage h k n i hne]
        exact hm
    · rintro ⟨d', j, hd', hm⟩
      obtain ⟨rfl, rfl⟩ | ⟨hne, hd'⟩ := hchain hd'
      · rw [bdesc_withPage_self] at hm
        exact .inl (frameAddr_inj hm).symm
      · rw [bdesc_withPage h k n i hne] at hm
        exact .inr ⟨d', j, hd', hm⟩
  · intro d' hd'
    obtain ⟨m, hm, hpage', hmem, hone⟩ := hp.descs d' hd'
    refine ⟨m, hm, hpage', hmem, ?_⟩
    refine (Function.update_of_ne (fun heq => ?_) _ _).trans hone
    exact hp.not_desc hzero hd' (heq ▸ hpage')
  · intro d' hd' m hm
    obtain rfl | hm := List.mem_cons.mp hm
    · exact hp.not_desc hzero hd'
    · exact hp.unlike d' hd' m hm
  · intro d' hd'
    rw [Function.update_apply] at hd'
    split at hd'
    case isTrue => cases hd'
    case isFalse hne =>
      rw [bdesc_withPage h k n i hne]
      exact hp.reset hd'

end SetUp

theorem Busy.keep {place' : ℕ → Option Place} (hbusy : h.Busy place)
    (hplace : ∀ d i, place' d = some (.chain i) → place d = some (.chain i))
    (hlive : h'.live = h.live)
    (hbdesc : ∀ d i, place d = some (.chain i) → h'.bdesc d = h.bdesc d) : h'.Busy place' := by
  intro d i hd
  have hd := hplace d i hd
  rw [hbdesc d i hd, liveOn, hlive]
  exact hbusy d i hd

/-- What the descriptors' pages are to a heap in which nothing else is done. -/
theorem Pages.descs_keep (hp : h.Pages place) : ∀ d ∈ h.descs, ∃ n < h.frames,
    Malloc.pageOf d = frameAddr n ∧ frameAddr n ∈ h.descs ∧ h.memMap n = 1 ∧ n ∉ h.got := by
  intro d hd
  obtain ⟨n, hn, hpage, hmem, hone⟩ := hp.descs d hd
  exact ⟨n, hn, hpage, hmem, hone, fun hgot => hp.unlike d hd n hgot hpage⟩

theorem Kept.takeDesc (hl : h.Lists place) (hp : h.Pages place) (hbusy : h.Busy place)
    (hfree : h.freeDesc ≠ none) (hi : findBucket len = some i) : (h.takeDesc i len).Kept := by
  obtain ⟨d, hfree⟩ := Option.ne_none_iff_exists'.mp hfree
  obtain ⟨hd, hlists⟩ := hl.takeDesc hfree hi
  have hne : ∀ j, place d ≠ some (.chain j) := fun j heq => by
    rw [hd] at heq
    cases heq
  refine ⟨_, hlists, hp.takeDesc hfree hd i len, hbusy.keep (fun d' j => ?_) rfl fun d' j hd' => ?_⟩
  · exact (update_place_iff (by nofun) (hne j) d').mp
  · simp only [Heap.takeDesc, hfree, Option.getD_some]
    refine Function.update_of_ne ?_ _ _
    rintro rfl
    exact hne j hd'

theorem Kept.malloc (hk : h.Kept) (hstep : h.malloc len = .ok h') : h'.Kept := by
  obtain ⟨place, hl, hp, hbusy⟩ := hk
  rw [Heap.malloc] at hstep
  cases hi : findBucket len with
  | none =>
    rw [hi] at hstep
    cases hstep
  | some i =>
    rw [hi] at hstep
    dsimp only at hstep
    obtain ⟨l, hlist, hmem⟩ := hl.chain i
    obtain ⟨l₁, d, l₂, rfl, hfree, -, hfind⟩ | ⟨-, hfind⟩ :=
      Links.findFrom_spec (p := fun d => (h.bdesc d).freeptr.isSome) (b := none) hlist
        (hl.length_le hlist hmem)
    · rw [hfind] at hstep
      obtain rfl := Except.ok.inj hstep
      have hd : place d = some (.chain i) := (hmem d).mp (by simp)
      have hsome : (h.bdesc d).freeptr ≠ none := Option.isSome_iff_ne_none.mp hfree
      exact ⟨place, hl.allocate d len, hp.allocate hd hsome hi,
        BusyBut.allocate (fun d' j hd' _ => hbusy d' j hd') hp hd hsome len⟩
    · rw [hfind] at hstep
      dsimp only at hstep
      split at hstep
      case isTrue =>
        obtain rfl := Except.ok.inj hstep
        refine ⟨place, ⟨hl.chain, hl.free, hl.nodup, hl.held, hl.descs, fun c hc => ?_⟩, ?_, hbusy⟩
        · exact (List.mem_cons.mp hc).elim (fun heq => heq ▸ hi) (hl.found c)
        · exact hp.keep (fun _ _ => Iff.rfl) rfl rfl rfl (fun _ _ _ => rfl)
            (fun _ _ _ _ hne => absurd rfl hne) (fun _ _ => rfl) hp.descs_keep fun _ => hp.reset
      case isFalse hsome =>
        obtain rfl := Except.ok.inj hstep
        exact Kept.takeDesc hl hp hbusy hsome hi

/-- A call goes on with the page `n`. -/
theorem Kept.wake {k : ℕ} {found : Option ℕ} (hk : h.Kept)
    (hfound : ∀ n, found = some n → n < h.frames ∧ h.memMap n = 0)
    (hstep : h.wake k found = .ok h') : h'.Kept := by
  obtain ⟨place, hl, hp, hbusy⟩ := id hk
  unfold Heap.wake at hstep
  cases hasleep : h.asleep[k]? with
  | none =>
    rw [hasleep] at hstep
    exact Except.ok.inj hstep ▸ hk
  | some c =>
    rw [hasleep] at hstep
    have hi := hl.found c (List.mem_of_getElem? hasleep)
    cases found with
    | none =>
      cases c with
      | desc i len => cases hstep
      | page i len d => cases hstep
    | some n =>
      obtain ⟨hn, hzero⟩ := hfound n rfl
      cases c with
      | desc i len =>
        obtain rfl := Except.ok.inj hstep
        have hnew := hp.new_desc hzero
        refine Kept.takeDesc (hl.initBucketDesc hasleep hnew n)
          (hp.initBucketDesc hl hn hzero k) (hbusy.keep (fun d j => ?_) rfl fun d j hd => ?_)
          (by simp [Heap.initBucketDesc]) hi
        · exact (hl.new_iff hnew (by nofun)).mpr
        · exact if_neg (hl.not_new hnew hd)
      | page i len d =>
        obtain rfl := Except.ok.inj hstep
        obtain ⟨hd, hlists⟩ := hl.setUp hasleep n (frameAddr n) (n :: h.got)
        have hpages := hp.withPage hd hn hzero k i
        have hself : update place d (some (.chain i)) d = some (.chain i) :=
          Function.update_self _ _ _
        have hfree : ((h.withPage k n i d).bdesc d).freeptr ≠ none := by
          rw [bdesc_withPage_self]
          exact Option.some_ne_none _
        have hbut : (h.withPage k n i d).BusyBut (update place d (some (.chain i))) d := by
          intro d' j hd' hne
          rw [Function.update_of_ne hne] at hd'
          rw [bdesc_withPage h k n i hne]
          exact hbusy d' j hd'
        exact ⟨_, Lists.allocate hlists d len, hpages.allocate hself hfree hi,
          hbut.allocate hpages hself hfree len⟩

/-- `free_s` of a live object does not reach `panic`. -/
theorem freeS_spec (hk : h.Kept) (hlive : (obj, len) ∈ h.live) (hsize : size = 0 ∨ size = len) :
    ∃ h', h.freeS obj size = .ok h' ∧ h'.Kept ∧ h'.live = h.live.filter (·.1 ≠ obj) ∧
      ∀ n ∈ h.got, n ∉ h'.got → h'.memMap n = 0 := by
  obtain ⟨place, hl, hp, hbusy⟩ := hk
  obtain ⟨i, d, hi, hd, hslot⟩ := hp.live _ hlive
  have hobj : obj ∈ h.live.map Prod.fst := List.mem_map_of_mem hlive
  have hpageOf := (hp.bucket hd).pageOf hslot
  have hle : size ≤ bucketSize i := by
    have hlen := findBucket_spec hi
    omega
  obtain ⟨l₁, l₂, hlist, hmem, hfind⟩ := findPage_spec hl hp hd hle
  -- the object is on the free list again
  have hl' := hl.putObj d obj
  have hp' := hp.putObj hd hobj hslot
  have hbusy' : (h.putObj d obj).BusyBut place d := by
    intro d' j hd' hne
    have hpos := hbusy d' j hd'
    rw [liveOn_putObj hp.nodup hobj d, if_neg] at hpos
    · rw [page_putObj]
      exact hpos
    · rw [hpageOf]
      exact fun heq => hne (hp.apart hd' hd heq.symm)
  rw [← hpageOf] at hfind
  rw [freeS, hfind]
  simp only [bind, Except.bind, pure, Except.pure]
  split
  case isTrue hrefcnt =>
    have hzero : (h.putObj d obj).liveOn ((h.putObj d obj).bdesc d).page = 0 := by
      rw [← hp'.refcnt_eq hd, hrefcnt]
      rfl
    obtain ⟨n, hn, hpage, hone⟩ := (hp'.bucket hd).frame
    have hlist' : IsList (h.putObj d obj).next ((h.putObj d obj).chain i) (l₁ ++ d :: l₂) := hlist
    obtain ⟨next, chain, hunlink, hrest, hchain, hnext⟩ := unlink_spec hlist'
    rw [checkPrev_eq hlist', hunlink]
    dsimp only
    rw [freePage_spec (h := { h.putObj d obj with next := next, chain := chain }) hpage hn hone]
    refine ⟨_, rfl, ⟨update place d (some .free),
      hl'.release hd hlist' hmem hrest hchain hnext n, hp'.release hd hpage hzero next chain,
      fun d' j hd' => ?_⟩, rfl, fun m hm hgone => ?_⟩
    · rw [Function.update_apply] at hd'
      split at hd'
      case isTrue => cases hd'
      case isFalse hne => exact hbusy' d' j hd' hne
    · -- it is the page that was given back
      have heq : m = n := by
        by_contra hne
        exact hgone ((List.mem_erase_of_ne hne).mpr hm)
      rw [heq]
      exact Function.update_self _ _ _
  case isFalse hrefcnt =>
    refine ⟨_, rfl, ⟨place, hl', hp', fun d' j hd' => ?_⟩, rfl, fun m hm hgone => absurd hm hgone⟩
    by_cases heq : d' = d
    · subst heq
      refine Nat.pos_of_ne_zero fun hzero => hrefcnt ?_
      rw [(hp'.bucket hd).refcnt, hzero]
      rfl
    · exact hbusy' d' j hd' heq

theorem Kept.step {e : Event} (hk : h.Kept) (hcan : h.Can e) (hstep : h.step e = .ok h') :
    h'.Kept := by
  cases e with
  | malloc len => exact hk.malloc hstep
  | wake k found => exact hk.wake hcan.2 hstep
  | free obj size =>
    obtain ⟨len, hlive, hsize⟩ := hcan
    obtain ⟨h'', hfree, hk'', -⟩ := freeS_spec hk hlive hsize
    exact Except.ok.inj (hfree.symm.trans hstep) ▸ hk''
  | others word memMap =>
    obtain ⟨hword, hmap⟩ := hcan
    obtain rfl := Except.ok.inj hstep
    obtain ⟨place, hl, hp, hbusy⟩ := hk
    refine ⟨place, ⟨hl.chain, hl.free, hl.nodup, hl.held, hl.descs, hl.found⟩, ?_, hbusy⟩
    refine hp.keep (fun _ _ => Iff.rfl) rfl rfl rfl (fun _ _ _ => rfl) hword
      (fun n hn => hmap n (.inl hn)) (fun d hd => ?_) fun _ => hp.reset
    obtain ⟨n, hn, hpage, hmem, hone, hgot⟩ := hp.descs_keep d hd
    exact ⟨n, hn, hpage, hmem, (hmap n (.inr hmem)).trans hone, hgot⟩

end Heap

theorem kept_of_reach {h : Heap} (hr : malloc.Reachable h) : h.Kept := by
  refine hr.invariant (I := Heap.Kept) (fun h hinit => ?_) fun h e h' hk _ hstep => ?_
  · obtain ⟨hchain, hfree, hasleep, hlive, hdescs, hgot⟩ := hinit
    have hheld : h.held = [] := by
      rw [Heap.held, hasleep]
      rfl
    refine ⟨fun _ => none, ⟨fun i => ⟨[], ?_, by simp⟩, ⟨[], hfree, by simp⟩, ?_, ?_, ?_, ?_⟩,
      ⟨nofun, nofun, ?_, ?_, ?_, ?_, ?_, ?_, nofun⟩, nofun⟩
    all_goals simp [hchain, hheld, hdescs, hasleep, hlive, hgot]
  · exact hk.step hstep.1 hstep.2

/-! ### What holds in every run -/

/-- The size of the objects that `malloc` gives out for `len`. -/
def room (len : ℕ) : ℕ := (findBucket len).elim 0 bucketSize

/-- The descriptor `d` is at this place. -/
def Heap.At (h : Heap) (d : ℕ) : Place → Prop
  | .chain i => ∃ l, IsList h.next (h.chain i) l ∧ d ∈ l
  | .free => ∃ l, IsList h.next h.freeDesc l ∧ d ∈ l
  | .held => d ∈ h.held

structure Heap.Sound (h : Heap) : Prop where
  disjoint : h.live.Pairwise fun o o' => o.1 + room o.2 ≤ o'.1 ∨ o'.1 + room o'.2 ≤ o.1
  inside : ∀ o ∈ h.live, o.2 ≤ room o.2 ∧ o.1 + room o.2 ≤ pageOf o.1 + PAGE_SIZE
  place : ∀ d ∈ h.descs, ∃! p, h.At d p
  /-- no two calls have taken the same descriptor -/
  held : h.held.Nodup
  refcnt : ∀ i d, h.At d (.chain i) → (h.bdesc d).refcnt.toNat = h.liveOn (h.bdesc d).page
  pages : ∀ n, n ∈ h.got ↔ ∃ o ∈ h.live, pageOf o.1 = frameAddr n
  /-- `free_s` does not reach `panic`, and gives the page back if the object is its last -/
  free : ∀ obj len size, (obj, len) ∈ h.live → size = 0 ∨ size = len →
    ∃ h', h.freeS obj size = .ok h' ∧ ∀ n ∈ h.got,
      (h'.memMap n = 0 ↔ ∀ o ∈ h.live, pageOf o.1 = frameAddr n → o.1 = obj)

namespace Heap

variable {h : Heap} {place : ℕ → Option Place}

theorem Lists.at_iff (hl : h.Lists place) (d : ℕ) (p : Place) :
    h.At d p ↔ place d = some p := by
  have hlist : ∀ {start : Option ℕ} {q : Place},
      (∃ l, IsList h.next start l ∧ ∀ d, d ∈ l ↔ place d = some q) →
      ((∃ l, IsList h.next start l ∧ d ∈ l) ↔ place d = some q) := by
    rintro start q ⟨l, hl, hmem⟩
    constructor
    · rintro ⟨l', hl', hd⟩
      rw [hl'.unique hl] at hd
      exact (hmem d).mp hd
    · exact fun hd => ⟨l, hl, (hmem d).mpr hd⟩
  cases p with
  | chain i => exact hlist (hl.chain i)
  | free => exact hlist hl.free
  | held => exact hl.held d

theorem Pages.pages_iff (hp : h.Pages place) (hbusy : h.Busy place) (n : ℕ) :
    n ∈ h.got ↔ ∃ o ∈ h.live, Malloc.pageOf o.1 = frameAddr n := by
  rw [hp.got n]
  constructor
  · rintro ⟨d, i, hd, hpage⟩
    obtain ⟨o, ho, hon⟩ := List.countP_pos_iff.mp (hbusy d i hd)
    exact ⟨o, ho, (of_decide_eq_true hon).trans hpage⟩
  · rintro ⟨o, ho, hpage⟩
    obtain ⟨i, d, -, hd, hslot⟩ := hp.live o ho
    exact ⟨d, i, hd, ((hp.bucket hd).pageOf hslot).symm.trans hpage⟩

theorem Pages.disjoint (hp : h.Pages place) :
    h.live.Pairwise fun o o' => o.1 + room o.2 ≤ o'.1 ∨ o'.1 + room o'.2 ≤ o.1 := by
  have hne : h.live.Pairwise fun o o' => o.1 ≠ o'.1 := List.pairwise_map.mp hp.nodup
  refine hne.imp_of_mem fun {o o'} ho ho' hne => ?_
  obtain ⟨i, d, hi, hd, hslot⟩ := hp.live o ho
  obtain ⟨i', d', hi', hd', hslot'⟩ := hp.live o' ho'
  simp only [room, hi, hi', Option.elim_some]
  by_cases heq : d = d'
  · subst heq
    rw [hd] at hd'
    obtain rfl := Place.chain.inj (Option.some.inj hd')
    exact slot_apart hslot hslot' hne
  · -- objects of different pages
    obtain ⟨n, -, hpage, -⟩ := (hp.bucket hd).frame
    obtain ⟨n', -, hpage', -⟩ := (hp.bucket hd').frame
    have hpages : n ≠ n' := fun hn => heq (hp.apart hd hd' (by rw [hpage, hpage', hn]))
    obtain ⟨h₁, h₂⟩ := slot_bounds hslot
    obtain ⟨h₁', h₂'⟩ := slot_bounds hslot'
    rw [hpage, frameAddr, PAGE_SIZE] at h₁ h₂
    rw [hpage', frameAddr, PAGE_SIZE] at h₁' h₂'
    omega

theorem Kept.sound (hk : h.Kept) : h.Sound := by
  obtain ⟨place, hl, hp, hbusy⟩ := id hk
  refine ⟨hp.disjoint, fun o ho => ?_, fun d hd => ?_, hl.nodup, fun i d hd => ?_,
    hp.pages_iff hbusy, fun obj len size hlive hsize => ?_⟩
  · obtain ⟨i, d, hi, hd, hslot⟩ := hp.live o ho
    obtain ⟨-, hend⟩ := slot_bounds hslot
    rw [← (hp.bucket hd).pageOf hslot] at hend
    simp only [room, hi, Option.elim_some]
    exact ⟨findBucket_spec hi, hend⟩
  · obtain ⟨p, hp⟩ := Option.ne_none_iff_exists'.mp ((hl.descs d).mp hd)
    refine ⟨p, (hl.at_iff d p).mpr hp, fun q hq => ?_⟩
    have hq' := (hl.at_iff d q).mp hq
    exact Option.some.inj (hq'.symm.trans hp)
  · exact hp.refcnt_eq ((hl.at_iff d _).mp hd)
  · obtain ⟨h', hfree, hk', hlive', hgone⟩ := freeS_spec hk hlive hsize
    refine ⟨h', hfree, fun n hn => ?_⟩
    obtain ⟨place', -, hp', hbusy'⟩ := hk'
    have hgot : h'.memMap n = 0 ↔ n ∉ h'.got := by
      refine ⟨fun hzero hin => ?_, hgone n hn⟩
      exact hp'.not_got hzero hin
    rw [hgot, hp'.pages_iff hbusy', hlive']
    simp only [List.mem_filter, decide_eq_true_eq, not_exists, not_and, and_imp]
    constructor
    · intro hnone o ho hpage
      by_contra hne
      exact hnone o ho hne hpage
    · exact fun hall o ho hne hpage => hne (hall o ho hpage)

end Heap

/-- In every state of every run the live objects do not overlap, lie in one page each and are
large enough, each descriptor is at one place, `refcnt` is the number of live objects of the page,
the pages held for objects are those with live objects, and `free_s` of a live object does not
reach `panic` and gives the page back exactly if the object is its last. -/
theorem kernel_malloc (h : Heap) (hr : malloc.Reachable h) : h.Sound := (kept_of_reach hr).sound

/-! ### One object -/

/-- The heap at boot. -/
def booted (frames : ℕ) : Heap :=
  ⟨fun _ => none, none, fun _ => ⟨0, none, 0, 0⟩, fun _ => none, fun _ => none, fun _ => 0, frames,
    [], [], [], []⟩

/-- The first `malloc` sleeps for a page of descriptors, and then for its page. -/
theorem oneObject_reach : ∃ h, malloc.Reachable h ∧ h.live = [(frameAddr 1, 100)] := by
  have hpage : ∀ n, n < 2 → ∀ m, some n = some m → m < 2 := fun n hn m hm => Option.some.inj hm ▸ hn
  have hinit : malloc.Reachable (booted 2) := .init ⟨rfl, rfl, rfl, rfl, rfl, rfl⟩
  have hcall := hinit.step (a := Event.malloc 100) trivial ⟨trivial, rfl⟩
  have hdesc := hcall.step (a := Event.wake 0 (some 0)) trivial
    ⟨⟨Nat.one_pos, fun m hm => ⟨hpage 0 (by decide) m hm, rfl⟩⟩, rfl⟩
  refine ⟨_, hdesc.step (a := Event.wake 0 (some 1)) trivial
    ⟨⟨Nat.one_pos, fun m hm => ⟨hpage 1 (by decide) m hm, ?_⟩⟩, rfl⟩, rfl⟩
  obtain rfl := Option.some.inj hm
  rfl

/-- Its page is held, and it may be given back. -/
theorem kernel_malloc_one : ∃ h : Heap, h.live = [(frameAddr 1, 100)] ∧
    (∃ n ∈ h.got, frameAddr 1 = frameAddr n) ∧ ∃ h', h.freeS (frameAddr 1) 100 = .ok h' := by
  obtain ⟨h, hr, hlive⟩ := oneObject_reach
  have hmem : (frameAddr 1, 100) ∈ h.live := by
    rw [hlive]
    exact List.mem_singleton_self _
  have hsound := kernel_malloc h hr
  obtain ⟨h', hfree, -⟩ := hsound.free _ _ 100 hmem (.inr rfl)
  refine ⟨h, hlive, ⟨1, (hsound.pages 1).mpr ⟨_, hmem, pageOf_frameAddr 1⟩, rfl⟩, h', hfree⟩

end Malloc
