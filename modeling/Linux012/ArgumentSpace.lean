/-
The space for arguments over all the calls of `copy_strings` that one `execve` makes (fs/exec.c).

* `copyStringsInside` — `copy_strings`, stopped at a byte that it would store outside of a page;
* `copyStringsInside_eq` — there is none, as long as `page` has the page;
* `Bounded` — what the calls have come to is an offset in the space, or 0 where there was no room;
* `argument_space` — they have come to that, exactly if the strings leave a byte of the space, or
  the pages come to an end;
* `argument_space_overrun` — one string that takes all the space and a byte more.

Design notes: `p - len < 0` compares an unsigned number, so the strings that do not fit are copied
as far as there are pages; below `p = 0` the copying goes on at the top of the 32-bit numbers.
-/
import Linux012.Exec
import Linux012.Runs

namespace Exec

/-! ### Bytes inside of their page -/

section Code

variable (getFreePage : ℕ → Bool) (old : Seg) (kmem : FromKmem)

/-- The byte is stored in a page of the array `page`, and inside of it. -/
def Cursor.storeInside (c : Cursor) (b : UInt8) : Except Exit Cursor :=
  if c.pag < MAX_ARG_PAGES ∧ (c.page c.pag).isSome ∧ 0 ≤ c.offset ∧ c.offset < PAGE_SIZE then
    .ok (c.store b)
  else .error (.stop .wild)

/-- The local variables are set to the byte below. -/
def Cursor.lower (c : Cursor) : Except Exit Cursor :=
  let c := { c with p := sub32 c.p 1, offset := c.offset - 1 }
  if c.offset < 0 then c.turnPage getFreePage old kmem else .ok c

/-- `copyByte` with that check. -/
def copyByteInside (tmp : Far UInt8) (c : Cursor) : Except Exit Cursor := do
  let c ← c.lower getFreePage old kmem
  let b ← (tmp.get c.fs).mapError .stop
  c.storeInside b

def copyBytesInside (seg : Seg) : List UInt8 → Cursor → Except Exit Cursor
  | [], c => .ok c
  | b :: bs, c => do
    let c ← copyByteInside getFreePage old kmem ⟨seg, b⟩ c
    copyBytesInside seg bs c

def copyLoopInside (argv : Far (List (Far CStr))) : ℕ → Cursor → Except Exit Cursor
  | 0, c => .ok c
  | n + 1, c => do
    let fs := if kmem = .array then Seg.kernel else c.fs
    let tmps ← (argv.get fs).mapError .stop
    match tmps[n]? with
    | none => .error (.stop .panic)
    | some tmp =>
      let c := { c with fs := if kmem = .array then old else c.fs }
      let s ← (tmp.get c.fs).mapError .stop
      if sub32 c.p s.image.length < 0 then .error (.refused { c.toArgs with fs := old })
      else do
        let c ← copyBytesInside getFreePage old kmem tmp.seg s.image.reverse c
        copyLoopInside argv n c

/-- `copyStrings`, where a byte that goes outside of a page ends the call as `wild`. -/
def copyStringsInside (argc : ℤ) (argv : Far (List (Far CStr))) (kmem : FromKmem) (a : Args) :
    Except Stop Args :=
  if a.p = 0 then .ok a
  else
    let fs := if kmem = .both then Seg.kernel else a.fs
    match copyLoopInside getFreePage a.fs kmem argv argc.toNat
      { a with fs, offset := 0, pag := 0 } with
    | .ok c => .ok { c.toArgs with fs := if kmem = .both then a.fs else c.fs }
    | .error (.refused a) => .ok { a with p := 0 }
    | .error (.stop s) => .error s

end Code

/-- The local variables name a byte of a page, or no byte yet. -/
def Cursor.Within (c : Cursor) : Prop :=
  c.offset = 0 ∨ c.pag < MAX_ARG_PAGES ∧ (c.page c.pag).isSome ∧ 0 ≤ c.offset ∧
    c.offset < PAGE_SIZE

section Inside

variable {getFreePage : ℕ → Bool} {old : Seg} {kmem : FromKmem} {c c' : Cursor} {b : UInt8}

theorem Cursor.page_store_isSome (h : (c.page c.pag).isSome) :
    ((c.store b).page (c.store b).pag).isSome := by
  rw [store]
  dsimp only
  rwa [Function.update_self, Option.isSome_map]

/-- Where a page is turned to, it is there. -/
theorem Cursor.turnPage_within (h : c.turnPage getFreePage old kmem = .ok c') :
    c'.pag < MAX_ARG_PAGES ∧ (c'.page c'.pag).isSome ∧ 0 ≤ c'.offset ∧ c'.offset < PAGE_SIZE := by
  have hoff : ((c.p % PAGE_SIZE : ℕ) : ℤ) < PAGE_SIZE := by
    exact_mod_cast Nat.mod_lt _ (by decide)
  rw [turnPage] at h
  dsimp only at h
  split at h
  case isTrue => cases h
  case isFalse hlt =>
    split at h
    case isTrue hpage =>
      obtain rfl := Except.ok.inj h
      exact ⟨not_le.mp hlt, hpage, Int.natCast_nonneg _, hoff⟩
    case isFalse =>
      split at h
      case isTrue =>
        obtain rfl := Except.ok.inj h
        refine ⟨not_le.mp hlt, ?_, Int.natCast_nonneg _, hoff⟩
        dsimp only
        rw [Function.update_self]
        rfl
      case isFalse => cases h

/-- The cursor with which a byte is stored. -/
theorem Cursor.Within.lower (h : c.Within) (hc : c.lower getFreePage old kmem = .ok c') :
    c'.pag < MAX_ARG_PAGES ∧ (c'.page c'.pag).isSome ∧ 0 ≤ c'.offset ∧ c'.offset < PAGE_SIZE := by
  rw [Cursor.lower] at hc
  dsimp only at hc
  split at hc
  case isTrue => exact turnPage_within hc
  case isFalse hle =>
    obtain rfl := Except.ok.inj hc
    rcases h with h | ⟨hpag, hpage, hle', hlt⟩
    · omega
    · exact ⟨hpag, hpage, (by omega : 0 ≤ c.offset - 1), (by omega : c.offset - 1 < PAGE_SIZE)⟩

theorem copyByte_eq (tmp : Far UInt8) (c : Cursor) : copyByte getFreePage old kmem tmp c =
    c.lower getFreePage old kmem >>= fun c =>
      (tmp.get c.fs).mapError .stop >>= fun b => .ok (c.store b) := by
  rw [copyByte, Cursor.lower]
  dsimp only
  split <;> rfl

theorem copyByteInside_eq (h : c.Within) (tmp : Far UInt8) :
    copyByteInside getFreePage old kmem tmp c = copyByte getFreePage old kmem tmp c := by
  rw [copyByteInside, copyByte_eq]
  refine Except.bind_congr_ok fun c' hc => Except.bind_congr_ok fun b _ => ?_
  rw [Cursor.storeInside, if_pos (h.lower hc)]

theorem copyByte_within (h : c.Within) {tmp : Far UInt8}
    (hc : copyByte getFreePage old kmem tmp c = .ok c') : c'.Within := by
  rw [copyByte_eq] at hc
  obtain ⟨c₁, hc₁, hc⟩ := Except.ok_of_bind hc
  obtain ⟨b, -, hc⟩ := Except.ok_of_bind hc
  obtain rfl := Except.ok.inj hc
  obtain ⟨hpag, hpage, hle, hlt⟩ := h.lower hc₁
  exact .inr ⟨hpag, Cursor.page_store_isSome hpage, hle, hlt⟩

theorem copyBytesInside_eq (h : c.Within) {seg : Seg} (l : List UInt8) :
    copyBytesInside getFreePage old kmem seg l c = copyBytes getFreePage old kmem seg l c := by
  induction l generalizing c with
  | nil => rfl
  | cons b l ih =>
    rw [copyBytesInside, copyBytes, copyByteInside_eq h]
    exact Except.bind_congr_ok fun c' hc => ih (copyByte_within h hc)

theorem copyBytes_within (h : c.Within) {seg : Seg} {l : List UInt8}
    (hc : copyBytes getFreePage old kmem seg l c = .ok c') : c'.Within := by
  induction l generalizing c with
  | nil =>
    obtain rfl := Except.ok.inj hc
    exact h
  | cons b l ih =>
    rw [copyBytes] at hc
    obtain ⟨c₁, hc₁, hc⟩ := Except.ok_of_bind hc
    exact ih (copyByte_within h hc₁) hc

theorem copyLoopInside_eq (h : c.Within) {argv : Far (List (Far CStr))} (n : ℕ) :
    copyLoopInside getFreePage old kmem argv n c = copyLoop getFreePage old kmem argv n c := by
  induction n generalizing c with
  | zero => rfl
  | succ n ih =>
    rw [copyLoopInside, copyLoop]
    refine Except.bind_congr_ok fun tmps _ => ?_
    cases tmps[n]? with
    | none => rfl
    | some tmp =>
      dsimp only
      refine Except.bind_congr_ok fun s _ => ?_
      -- the segment alone has changed
      have hfs : Cursor.Within { c with fs := if kmem = .array then old else c.fs } := h
      rw [copyBytesInside_eq hfs]
      split
      · rfl
      · exact Except.bind_congr_ok fun c' hc => ih (copyBytes_within hfs hc)

/-- **No byte outside of a page**: `copy_strings` stores every byte in one of the 32 pages, or has
ended as `wild` before. -/
theorem copyStringsInside_eq (argc : ℤ) (argv : Far (List (Far CStr))) (kmem : FromKmem)
    (a : Args) :
    copyStringsInside getFreePage argc argv kmem a = copyStrings getFreePage argc argv kmem a := by
  rw [copyStringsInside]
  dsimp only
  rw [copyLoopInside_eq (.inl rfl)]
  rfl

end Inside

/-! ### The calls of one `execve` -/

/-- What one call copies, and `from_kmem`. -/
structure Copy where
  kmem : FromKmem
  strings : List CStr

/-- The calls, the latest first, each of them stopped at a byte outside of its page. -/
def copies (getFreePage : ℕ → Bool) : List Copy → Except Stop Args
  | [] => .ok noArgs
  | call :: calls => copies getFreePage calls >>=
      copyStringsInside getFreePage call.strings.length (call.kmem.source call.strings) call.kmem

/-- The calls for a program. -/
def plainCopies (argv envp : Option (List CStr)) : List Copy :=
  [⟨.neither, strings argv⟩, ⟨.neither, strings envp⟩]

/-- The calls for a script whose first line is `l`. -/
def scriptCopies (l : Line) (filename : CStr) (argv envp : Option (List CStr)) : List Copy :=
  ⟨.both, [l.iName]⟩ :: (l.iArg.toList.map fun s => ⟨.both, [s]⟩) ++
    [⟨.array, [filename]⟩, ⟨.neither, (strings argv).tail⟩, ⟨.neither, strings envp⟩]

/-- The calls of `do_execve`, by the first line of the script that it runs, if it is one. -/
def execCopies (script : Option Line) (filename : CStr) (argv envp : Option (List CStr)) :
    List Copy :=
  script.elim (plainCopies argv envp) fun l => scriptCopies l filename argv envp

/-- The part of `do_execve` that makes them. -/
def execCopying (w : World) (script : Option Line) (filename : CStr)
    (argv envp : Option (List CStr)) : Except Stop (Args × ℤ) :=
  script.elim (copyPlain w argv envp) fun l => copyScript w l filename argv envp

/-- The bytes that the strings of these calls take. -/
def Copy.taken (calls : List Copy) : ℕ := size (calls.map Copy.strings)

/-- The strings of these calls fit, and there are pages for them. -/
def Held (getFreePage : ℕ → Bool) (calls : List Copy) : Prop :=
  Copy.taken calls ≤ top ∧ Granted getFreePage (top - Copy.taken calls) top

/-- The calls have come to 0, if there was no room or no page; else to the offset of the strings in
the space. Nothing else has been touched. -/
def Bounded (getFreePage : ℕ → Bool) (calls : List Copy) : Prop :=
  ∃ a, copies getFreePage calls = .ok a ∧ (a.p = 0 ↔ ¬ Held getFreePage calls) ∧
    (a.p = 0 ∨ 0 < a.p ∧ a.p ≤ top ∧ a.p + Copy.taken calls = top)

section Calls

variable {getFreePage : ℕ → Bool} {call : Copy} {calls : List Copy}

theorem taken_cons : Copy.taken (call :: calls) =
    (CStr.flat call.strings).length + Copy.taken calls := size_cons

theorem copies_cons : copies getFreePage (call :: calls) = copies getFreePage calls >>=
    copyStrings getFreePage call.strings.length (call.kmem.source call.strings) call.kmem := by
  rw [copies]
  congr 1
  funext a
  exact copyStringsInside_eq ..

theorem copies_after (getFreePage : ℕ → Bool) (calls : List Copy) :
    After getFreePage (calls.map Copy.strings) (copies getFreePage calls) := by
  induction calls with
  | nil => exact after_nil (fun _ => rfl) rfl rfl
  | cons call calls ih =>
    rw [copies_cons]
    exact ih.call call.kmem (Int.toNat_natCast _)

/-- A number of arguments below 0 is none. -/
theorem copyStrings_toNat (argc : ℤ) (argv : Far (List (Far CStr))) (kmem : FromKmem) :
    copyStrings getFreePage argc argv kmem = copyStrings getFreePage argc.toNat argv kmem := rfl

theorem plainCopies_run (w : World) (argv envp : Option (List CStr)) : copyPlain w argv envp =
    (copies w.getFreePage (plainCopies argv envp) >>= fun a =>
      if a.p = 0 then .error (.error ENOMEM) else .ok (a, count argv)) := by
  rw [plainCopies, copies_cons, copies_cons, copyPlain, bind_assoc]
  rfl

theorem scriptCopies_run (w : World) (l : Line) (filename : CStr)
    (argv envp : Option (List CStr)) : copyScript w l filename argv envp =
      (copies w.getFreePage (scriptCopies l filename argv envp) >>= fun a =>
        if a.p = 0 then .error (.error ENOMEM) else .ok (a, scriptArgc l argv)) := by
  have htail : (count argv - 1).toNat = (strings argv).tail.length := by
    rw [count, List.length_tail]
    omega
  have hdrop : userArgv argv 1 = FromKmem.neither.source (strings argv).tail := by
    rw [userArgv, List.drop_one]
    rfl
  rw [copyScript, scriptCopies, scriptArgc, hdrop]
  dsimp only
  rw [copyStrings_toNat (count argv - 1), htail]
  cases l.iArg with
  | none =>
    rw [Option.toList_none, List.map_nil, List.singleton_append]
    simp only [copies_cons, bind_assoc]
    rfl
  | some iArg =>
    rw [Option.toList_some, List.map_singleton]
    simp only [List.cons_append, List.nil_append, copies_cons, bind_assoc]
    rfl

/-- The strings leave a byte, or there is a page missing somewhere: all is well. -/
theorem bounded_of (h : Copy.taken calls < top ∨ ¬ Granted getFreePage 0 top) :
    Bounded getFreePage calls := by
  rcases copies_after getFreePage calls with ⟨hover, hgr, -⟩ | ⟨-, a, hok, -, hcase⟩
  · rcases h with hlt | hno
    · exact absurd hover (not_overruns hlt.le)
    · exact absurd hgr hno
  · refine ⟨a, hok, ?_⟩
    rcases hcase with ⟨hp, hfits⟩ | ⟨hfits, hst⟩
    · refine ⟨⟨fun _ hheld => ?_, fun _ => hp⟩, .inl hp⟩
      rcases h with hlt | hno
      · exact hfits ⟨hlt, hheld.2⟩
      · -- the strings take all the space
        rcases hheld.1.lt_or_eq with hlt | heq
        · exact hfits ⟨hlt, hheld.2⟩
        · rw [Held, heq, Nat.sub_self] at hheld
          exact hno hheld.2
    · have hadd : a.p + Copy.taken calls = top := hst.p_add
      have hlt : Copy.taken calls < top := hfits.1
      refine ⟨⟨fun hp => by omega, fun hno => absurd ⟨hlt.le, hfits.2⟩ hno⟩, .inr ?_⟩
      omega

/-- The first call that takes the last byte is not bounded. -/
theorem taken_lt (h : ∀ calls', calls' <:+ calls → Bounded getFreePage calls')
    (hgr : Granted getFreePage 0 top) : Copy.taken calls < top := by
  induction calls with
  | nil => decide
  | cons call calls ih =>
    have hlt := ih fun calls' hsuf => h calls' (hsuf.trans (List.suffix_cons _ _))
    obtain ⟨a, hok, hzero, -⟩ := h (call :: calls) (List.suffix_refl _)
    by_contra hle
    rcases copies_after getFreePage (call :: calls) with ⟨-, -, hw⟩ | ⟨hover, a', hok', -, hcase⟩
    · rw [hok] at hw
      cases hw
    · obtain rfl : a = a' := by
        rw [hok] at hok'
        exact Except.ok.inj hok'
      -- the call has not run down below 0: the strings take the space exactly
      have heq : Copy.taken (call :: calls) = top := by
        rcases (not_lt.mp hle).lt_or_eq with hgt | heq
        · exact absurd ⟨.inr ⟨hlt, hgt⟩, hgr⟩ hover
        · exact heq.symm
      rcases hcase with ⟨hp, -⟩ | ⟨hfits, -⟩
      · refine hzero.mp hp ⟨heq.le, ?_⟩
        rw [heq, Nat.sub_self]
        exact hgr
      · exact hle hfits.1

theorem taken_suffix {calls' : List Copy} (h : calls' <:+ calls) :
    Copy.taken calls' ≤ Copy.taken calls := by
  obtain ⟨front, rfl⟩ := h
  induction front with
  | nil => exact le_rfl
  | cons call front ih =>
    rw [List.cons_append, taken_cons]
    omega

end Calls

/-- **The space for arguments**: the calls of an `execve`, each with those before it, come to 0
where there is no room or no page, and else to an offset in the space, if and only if all the
strings leave a byte of the space or there are not pages for the whole of it. -/
theorem argument_space (w : World) (script : Option Line) (filename : CStr)
    (argv envp : Option (List CStr)) :
    (∃ argc, execCopying w script filename argv envp =
      (copies w.getFreePage (execCopies script filename argv envp) >>= fun a =>
        if a.p = 0 then .error (.error ENOMEM) else .ok (a, argc))) ∧
    ((∀ calls, calls <:+ execCopies script filename argv envp → Bounded w.getFreePage calls) ↔
      Copy.taken (execCopies script filename argv envp) < top ∨
        ¬ Granted w.getFreePage 0 top) := by
  refine ⟨?_, fun h => ?_, fun h calls hsuf => bounded_of ?_⟩
  · cases script with
    | none => exact ⟨_, plainCopies_run w argv envp⟩
    | some l => exact ⟨_, scriptCopies_run w l filename argv envp⟩
  · by_cases hgr : Granted w.getFreePage 0 top
    · exact .inl (taken_lt h hgr)
    · exact .inr hgr
  · exact h.imp_left (taken_suffix hsuf).trans_lt

/-- A string without room for its NUL, and all the pages that there can be. -/
theorem copies_overrun {s : CStr} (hs : s.bytes.length = top) :
    copies (fun _ => true) (plainCopies (some [s]) none) = .error .wild := by
  have htaken : top < Copy.taken (plainCopies (some [s]) none) := by
    have hlen : s.image.length = top + 1 := by
      rw [CStr.length_image, hs]
    rw [plainCopies, taken_cons, strings, Option.getD_some, CStr.flat_cons, List.length_append,
      hlen]
    omega
  rcases copies_after (fun _ => true) (plainCopies (some [s]) none) with
    ⟨-, -, hw⟩ | ⟨hover, -⟩
  · exact hw
  · have hempty : Copy.taken [⟨.neither, strings none⟩] < top := by decide
    exact absurd ⟨.inr ⟨hempty, htaken⟩, fun _ _ _ => rfl⟩ hover

/-- A string of 131068 bytes, and its NUL. -/
def long : CStr := ⟨List.replicate top 1, fun h => absurd (List.eq_of_mem_replicate h) (by decide)⟩

/-- One argument that is too long by a byte, and all the pages that there can be. -/
theorem argument_space_overrun : copies (fun _ => true)
    (plainCopies (some [long]) none) = .error .wild ∧
      ¬ Bounded (fun _ => true) (plainCopies (some [long]) none) := by
  have hwild := copies_overrun (s := long) List.length_replicate
  refine ⟨hwild, ?_⟩
  rintro ⟨a, hok, -⟩
  rw [hwild] at hok
  cases hok

end Exec
