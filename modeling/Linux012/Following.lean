/-
Paths that pass through a link (`get_dir`, `_namei` and `follow_link` of fs/namei.c).

* `Disks.step`, `Disks.lookUp` — a name is looked up, and all the names of a path, the last one
  included;
* `Disks.Plain` — the names of a path lead to no link;
* `walk_append` — names that lead to no link may be walked as a part of a path, or be looked up
  first;
* `Disks.Through`, `resolve_through` — a path through a link is the path with the text of the
  link in its place;
* `Disks.Extends` — what is found in one state of the disks is found in another.

Design notes: a text with a slash at its end has an empty name there, which is looked up as `.` as
soon as something stands behind it.
-/
import Linux012.Chroot

namespace Fs

namespace Disks

variable (fs : Disks) (cur : Current)

/-- No link is followed, and none refused. -/
def keep (_dir inode : InodeId) : Except Crash (Option InodeId) := .ok (some inode)

variable (follow : InodeId → InodeId → Except Crash (Option InodeId))

/-- A name is looked up in a directory. -/
def step (d : InodeId) (name : Name) : Except Crash (Option InodeId) := do
  let r ← fs.find cur d name
  match r.2 with
  | none => .ok none
  | some (_, de) => do
    let inode ← fs.igets (r.1.1, de.inode)
    follow r.1 inode

/-- From what has been found, if anything. -/
def andThen (r : Except Crash (Option InodeId)) (f : InodeId → Except Crash (Option InodeId)) :
    Except Crash (Option InodeId) :=
  match r with
  | .error c => .error c
  | .ok none => .ok none
  | .ok (some x) => f x

/-- `_namei` without `follow_links`, from directory `d` on. -/
def lookUp : List Name → InodeId → Except Crash (Option InodeId)
  | [], d => .ok (some d)
  | name :: names, d =>
    if fs.Searchable cur d then
      if names = [] then if name = [] then .ok (some d) else fs.step cur keep d name
      else andThen (fs.step cur follow d name) fun x => lookUp names x
    else .ok none

/-- No name leads to a link. A slash at the end of a path is no name. -/
def Plain : List Name → InodeId → Prop
  | [], _ => True
  | name :: names, d => fs.Searchable cur d → name = [] ∧ names = [] ∨
      ∀ d' b de x, fs.find cur d name = .ok (d', some (b, de)) → fs.igets (d'.1, de.inode) = .ok x →
        (fs.inode x).isLnk = false ∧ Plain names x

variable {fs cur follow} {d d' x : InodeId} {name : Name} {names names' : List Name}

/-- The step of `get_dir`. -/
theorem walk_cons (hs : fs.Searchable cur d) (hne : names ≠ []) :
    fs.walk cur follow (name :: names) d =
      andThen (fs.step cur follow d name) fun x => fs.walk cur follow names x := by
  rw [walk, if_pos hs, if_neg hne, step]
  cases hf : fs.find cur d name with
  | error c => rfl
  | ok r =>
    obtain ⟨d', found⟩ := r
    cases found with
    | none => rfl
    | some found =>
      obtain ⟨b, de⟩ := found
      change (fs.igets (d'.1, de.inode) >>= _) = andThen (fs.igets (d'.1, de.inode) >>= _) _
      cases hget : fs.igets (d'.1, de.inode) with
      | error c => rfl
      | ok y =>
        change (follow d' y >>= _) = andThen (follow d' y) _
        rcases follow d' y with c | _ | z <;> rfl

theorem walk_single : fs.walk cur follow [name] d =
    .ok (if fs.Searchable cur d then some d else none) := by
  rw [walk]
  split
  · exact if_pos rfl
  · rfl

/-- What the last name of a path leads to. -/
theorem resolveLast_eq : fs.resolveLast cur follow d name false = fs.step cur keep d name := by
  rw [resolveLast, step]
  cases hf : fs.find cur d name with
  | error c => rfl
  | ok r =>
    obtain ⟨d', found⟩ := r
    cases found with
    | none => rfl
    | some found =>
      obtain ⟨b, de⟩ := found
      change (fs.igets (d'.1, de.inode) >>= _) = (fs.igets (d'.1, de.inode) >>= _)
      cases hget : fs.igets (d'.1, de.inode) with
      | error c => rfl
      | ok y => rfl

theorem getLastD_append_of_ne_nil (names : List Name) (hne : names' ≠ []) :
    (names ++ names').getLastD [] = names'.getLastD [] := by
  obtain ⟨l, c, rfl⟩ := (List.eq_nil_or_concat' names').resolve_left hne
  rw [← List.append_assoc]
  simp

theorem walk_lookUp (hne : names ≠ []) : fs.lookUp cur follow names d =
    andThen (fs.walk cur follow names d) fun dir =>
      if names.getLastD [] = [] then .ok (some dir)
      else fs.step cur keep dir (names.getLastD []) := by
  induction names generalizing d with
  | nil => exact absurd rfl hne
  | cons name names ih =>
    rw [lookUp]
    by_cases hs : fs.Searchable cur d
    · rw [if_pos hs]
      by_cases hnames : names = []
      · rw [hnames, if_pos rfl, walk_single, if_pos hs]
        rfl
      · rw [if_neg hnames, walk_cons hs hnames]
        have hlast : (name :: names).getLastD [] = names.getLastD [] :=
          getLastD_append_of_ne_nil [name] hnames
        rw [hlast]
        rcases fs.step cur follow d name with c | _ | y
        · rfl
        · rfl
        · exact ih hnames
    · rw [if_neg hs, walk, if_neg hs]
      rfl

/-! ### Paths and their names -/

theorem components_append (path rest : List Char) :
    components (path ++ '/' :: rest) = components path ++ components rest :=
  List.splitOn_append_cons_self path rest

/-- A path with one name that is empty is empty. -/
theorem length_components {path : List Char} (hne : path ≠ []) (hname : basename path = []) :
    1 < (components path).length := by
  by_contra hle
  obtain ⟨name, hnames⟩ := List.length_eq_one_iff.mp (show (components path).length = 1 by
    have := List.length_pos_iff.mpr (components_ne_nil path)
    omega)
  have hpath : ['/'].intercalate (components path) = path := List.intercalate_splitOn '/'
  rw [basename, hnames] at hname
  rw [hnames, show name = [] from hname] at hpath
  exact hne hpath.symm

theorem startOf_append (path rest : List Char) (base : Option InodeId) (hne : path ≠ []) :
    startOf cur (path ++ '/' :: rest) base =
      ((startOf cur path base).1, (startOf cur path base).2 ++ components rest) := by
  obtain ⟨c, path, rfl⟩ := List.exists_cons_of_ne_nil hne
  rw [startOf, startOf]
  by_cases hslash : (c :: path).head? = some '/'
  · rw [if_pos hslash, if_pos (show (c :: path ++ '/' :: rest).head? = some '/' from hslash)]
    exact congrArg _ (components_append path rest)
  · rw [if_neg hslash, if_neg (show ¬ (c :: path ++ '/' :: rest).head? = some '/' from hslash)]
    exact congrArg _ (components_append (c :: path) rest)

theorem startOf_ne_nil (path : List Char) (base : Option InodeId) :
    (startOf cur path base).2 ≠ [] := by
  rw [startOf]
  split
  · exact components_ne_nil _
  · exact components_ne_nil _

/-- The name after the last slash is the last name on the way. -/
theorem basename_eq (cur : Current) (path : List Char) (base : Option InodeId) :
    basename path = (startOf cur path base).2.getLastD [] := by
  rw [startOf, basename]
  split
  case isTrue hslash =>
    obtain ⟨path, rfl⟩ : ∃ rest, path = '/' :: rest := List.head?_eq_some_iff.mp hslash
    change (components ([] ++ '/' :: path)).getLastD [] = (components path).getLastD []
    rw [components_append, getLastD_append_of_ne_nil _ (components_ne_nil path)]
  case isFalse => rfl

theorem basename_append (path rest : List Char) :
    basename (path ++ '/' :: rest) = basename rest := by
  rw [basename, components_append, basename,
    getLastD_append_of_ne_nil _ (components_ne_nil rest)]

theorem resolve_lookUp (path : List Char) (base : Option InodeId) :
    fs.resolve cur follow path base false =
      fs.lookUp cur follow (startOf cur path base).2 (startOf cur path base).1 := by
  rw [walk_lookUp (startOf_ne_nil path base), resolve, walkFrom,
    basename_eq cur path base]
  rcases fs.walk cur follow (startOf cur path base).2 (startOf cur path base).1 with c | _ | dir
  · rfl
  · rfl
  · exact ite_congr rfl (fun _ => rfl) fun _ => resolveLast_eq

/-! ### Names that lead to no link -/

theorem step_plain (hkeep : ∀ d x, (fs.inode x).isLnk = false → follow d x = .ok (some x))
    (hplain : ∀ d' b de x, fs.find cur d name = .ok (d', some (b, de)) →
      fs.igets (d'.1, de.inode) = .ok x → (fs.inode x).isLnk = false) :
    fs.step cur follow d name = fs.step cur keep d name := by
  rw [step, step]
  cases hf : fs.find cur d name with
  | error c => rfl
  | ok r =>
    obtain ⟨d', found⟩ := r
    cases found with
    | none => rfl
    | some found =>
      obtain ⟨b, de⟩ := found
      change (fs.igets (d'.1, de.inode) >>= _) = (fs.igets (d'.1, de.inode) >>= _)
      cases hget : fs.igets (d'.1, de.inode) with
      | error c => rfl
      | ok x => exact hkeep d' x (hplain d' b de x hf hget)

/-- What a step that goes on leads to. -/
theorem step_some (h : fs.step cur follow d name = .ok (some x)) :
    ∃ d' b de y, fs.find cur d name = .ok (d', some (b, de)) ∧
      fs.igets (d'.1, de.inode) = .ok y ∧ follow d' y = .ok (some x) := by
  obtain ⟨⟨d', found⟩, hf, h⟩ := Except.ok_of_bind h
  cases found with
  | none => cases h
  | some found =>
    obtain ⟨b, de⟩ := found
    obtain ⟨y, hget, h⟩ := Except.ok_of_bind h
    exact ⟨d', b, de, y, hf, hget, h⟩

/-- Names that lead to no link, with names behind them: they can be looked up first. -/
theorem walk_append (hkeep : ∀ d x, (fs.inode x).isLnk = false → follow d x = .ok (some x))
    (hne : names ≠ []) (hne' : names' ≠ []) (hplain : fs.Plain cur names d)
    (hdot : names.getLastD [] = [] → ∀ dir, fs.walk cur keep names d = .ok (some dir) →
      fs.step cur follow dir [] = .ok (some dir)) :
    fs.walk cur follow (names ++ names') d =
      andThen (fs.lookUp cur keep names d) fun x => fs.walk cur follow names' x := by
  induction names generalizing d with
  | nil => exact absurd rfl hne
  | cons name names ih =>
    rw [lookUp, List.cons_append]
    by_cases hs : fs.Searchable cur d
    · rw [if_pos hs, walk_cons hs (List.append_ne_nil_of_right_ne_nil _ hne')]
      by_cases hnames : names = []
      · subst hnames
        rw [if_pos rfl, List.nil_append]
        by_cases hname : name = []
        · -- a slash at the end: the directory is found in itself
          subst hname
          rw [if_pos rfl, hdot rfl d (by rw [walk_single, if_pos hs])]
        · rw [if_neg hname]
          rcases hplain hs with ⟨hcon, -⟩ | hplain
          · exact absurd hcon hname
          · rw [step_plain hkeep fun d' b de x hf hget => (hplain d' b de x hf hget).1]
      · rw [if_neg hnames]
        have hplain' := (hplain hs).resolve_left fun hcon => hnames hcon.2
        rw [step_plain hkeep fun d' b de x hf hget => (hplain' d' b de x hf hget).1]
        cases hstep : fs.step cur keep d name with
        | error c => rfl
        | ok r =>
          cases r with
          | none => rfl
          | some x =>
            obtain ⟨d', b, de, y, hf, hget, hx⟩ := step_some hstep
            cases hx
            refine ih hnames (hplain' d' b de x hf hget).2 fun hlast dir hwalk => ?_
            refine hdot ((getLastD_append_of_ne_nil [name] hnames).trans hlast) dir ?_
            rw [walk_cons hs hnames, hstep]
            exact hwalk
    · rw [if_neg hs, walk, if_neg hs]
      rfl

/-- The directory of the last name, with names behind it. -/
theorem walk_last (names' : List Name) (h : fs.walk cur follow (names ++ [name]) d = .ok (some x)) :
    fs.Searchable cur x ∧
      fs.walk cur follow (names ++ name :: names') d = fs.walk cur follow (name :: names') x := by
  induction names generalizing d with
  | nil =>
    rw [List.nil_append, walk_single] at h
    split at h
    case isTrue hs =>
      cases h
      exact ⟨hs, rfl⟩
    case isFalse => cases h
  | cons first names ih =>
    rw [List.cons_append] at h ⊢
    by_cases hs : fs.Searchable cur d
    · rw [walk_cons hs (by simp)] at h
      rw [walk_cons hs (by simp)]
      rcases hstep : fs.step cur follow d first with c | _ | y <;> rw [hstep] at h
      · cases h
      · cases h
      · exact ih h
    · rw [walk, if_neg hs] at h
      cases h

/-- A walk ends where it has started, or at an inode that is got. -/
theorem walk_got (h : fs.walk cur keep names d = .ok (some x)) :
    x = d ∧ names.length ≤ 1 ∨ ∃ y, fs.igets y = .ok x := by
  induction names generalizing d with
  | nil =>
    cases h
    exact .inl ⟨rfl, Nat.zero_le 1⟩
  | cons name names ih =>
    by_cases hs : fs.Searchable cur d
    · by_cases hnames : names = []
      · subst hnames
        rw [walk_single, if_pos hs] at h
        cases h
        exact .inl ⟨rfl, Nat.le_refl 1⟩
      · rw [walk_cons hs hnames] at h
        rcases hstep : fs.step cur keep d name with c | _ | y <;> rw [hstep] at h
        · cases h
        · cases h
        · obtain ⟨d', b, de, z, -, hget, hz⟩ := step_some hstep
          cases hz
          rcases ih h with ⟨rfl, -⟩ | hgot
          · exact .inr ⟨_, hget⟩
          · exact .inr hgot
    · rw [walk, if_neg hs] at h
      cases h

theorem plain_last (hkeep : ∀ d x, (fs.inode x).isLnk = false → follow d x = .ok (some x))
    (hplain : fs.Plain cur (names ++ [name]) d) (hname : name ≠ [])
    (h : fs.walk cur follow (names ++ [name]) d = .ok (some x)) {d' y : InodeId} {b : ℕ × ℕ}
    {de : DirEntry} (hf : fs.find cur x name = .ok (d', some (b, de)))
    (hget : fs.igets (d'.1, de.inode) = .ok y) : (fs.inode y).isLnk = false := by
  induction names generalizing d with
  | nil =>
    rw [List.nil_append, walk_single] at h
    split at h
    case isTrue hs =>
      cases h
      rcases hplain hs with ⟨hcon, -⟩ | hplain
      · exact absurd hcon hname
      · exact (hplain d' b de y hf hget).1
    case isFalse => cases h
  | cons first names ih =>
    rw [List.cons_append] at h
    by_cases hs : fs.Searchable cur d
    · rw [walk_cons hs (by simp)] at h
      have hplain' := (hplain hs).resolve_left fun hcon => by simp at hcon
      rw [step_plain hkeep fun d' b de x hf hget => (hplain' d' b de x hf hget).1] at h
      rcases hstep : fs.step cur keep d first with c | _ | z <;> rw [hstep] at h
      · cases h
      · cases h
      · obtain ⟨d₁, b₁, de₁, y₁, hf₁, hget₁, hz⟩ := step_some hstep
        cases hz
        exact ih (hplain' d₁ b₁ de₁ z hf₁ hget₁).2 h
    · rw [walk, if_neg hs] at h
      cases h

/-! ### Paths through a link -/

variable (fs cur) in
/-- The last name of the path is that of inode `x`, and is in directory `d`. -/
def Through (path : List Char) (base : Option InodeId) (d x : InodeId) : Prop :=
  ∃ dir b de, fs.walkFrom cur (fs.follow cur) path base = .ok (some dir) ∧ basename path ≠ [] ∧
    fs.find cur dir (basename path) = .ok (d, some (b, de)) ∧ fs.igets (d.1, de.inode) = .ok x

variable (fs) in
/-- The text of the link. -/
def HasText (x : InodeId) (text : List Char) : Prop :=
  (fs.inode x).isLnk = true ∧
    ∃ b, fs.dirBuf x (fs.bmap x 0) = some b ∧ fs.text b.1 b.2 = text

variable {path rest text : List Char} {base : Option InodeId}

/-- The link itself, where it is not followed. -/
theorem Through.resolve (h : fs.Through cur path base d x) :
    fs.resolve cur (fs.follow cur) path base false = .ok (some x) := by
  obtain ⟨dir, b, de, hwalk, hname, hfind, hget⟩ := h
  rw [Disks.resolve, hwalk]
  change (if basename path = [] then _ else _) = _
  rw [if_neg hname, resolveLast_eq, step, hfind]
  change (fs.igets (d.1, de.inode) >>= _) = _
  rw [hget]
  rfl

theorem follow_keep (d x : InodeId) (h : (fs.inode x).isLnk = false) :
    fs.follow cur d x = .ok (some x) := by
  rw [follow, h]
  exact if_neg Bool.false_ne_true

theorem followKernel_keep (d x : InodeId) (h : (fs.inode x).isLnk = false) :
    fs.followKernel d x = .ok (some x) := by
  rw [followKernel, h]
  rfl

theorem lookUp_plain {follow : InodeId → InodeId → Except Crash (Option InodeId)}
    (hkeep : ∀ d x, (fs.inode x).isLnk = false → follow d x = .ok (some x))
    (hplain : fs.Plain cur names d) :
    fs.lookUp cur follow names d = fs.lookUp cur keep names d := by
  induction names generalizing d with
  | nil => rfl
  | cons name names ih =>
    rw [lookUp, lookUp]
    refine ite_congr rfl (fun hs => ?_) fun _ => rfl
    refine ite_congr rfl (fun _ => rfl) fun hnames => ?_
    have hplain' := (hplain hs).resolve_left fun hcon => hnames hcon.2
    rw [step_plain hkeep fun d' b de x hf hget => (hplain' d' b de x hf hget).1]
    cases hstep : fs.step cur keep d name with
    | error c => rfl
    | ok r =>
      cases r with
      | none => rfl
      | some x =>
        obtain ⟨d', b, de, y, hf, hget, hx⟩ := step_some hstep
        cases hx
        exact ih (hplain' d' b de x hf hget).2

/-- What following the link comes to, if its text leads to no link. -/
theorem follow_text (htext : fs.HasText x text)
    (hplain : fs.Plain cur (startOf cur text (some d)).2 (startOf cur text (some d)).1) :
    fs.follow cur d x =
      fs.lookUp cur keep (startOf cur text (some d)).2 (startOf cur text (some d)).1 := by
  obtain ⟨hlnk, b, hb, rfl⟩ := htext
  rw [follow, if_pos hlnk, hb]
  dsimp only
  rw [resolve_lookUp, lookUp_plain followKernel_keep hplain]

theorem resolve_of_walk {path' : List Char} {base' : Option InodeId}
    (hname : basename path = basename path')
    (h : fs.walkFrom cur follow path base = fs.walkFrom cur follow path' base')
    (followLinks : Bool) : fs.resolve cur follow path base followLinks =
      fs.resolve cur follow path' base' followLinks := by
  rw [resolve, resolve, h, hname]

/-- A path that goes on behind the link is the path with the text in its place. -/
theorem resolve_through (h : fs.Through cur path base d x) (htext : fs.HasText x text)
    (hne : text ≠ [])
    (hplain : fs.Plain cur (startOf cur text (some d)).2 (startOf cur text (some d)).1)
    (hdot : basename text = [] → ∀ dir, fs.walkFrom cur keep text (some d) = .ok (some dir) →
      fs.step cur (fs.follow cur) dir [] = .ok (some dir)) (followLinks : Bool) :
    fs.resolve cur (fs.follow cur) (path ++ '/' :: rest) base followLinks =
      fs.resolve cur (fs.follow cur) (text ++ '/' :: rest) (some d) followLinks := by
  obtain ⟨dir, b, de, hwalk, hname, hfind, hget⟩ := h
  have hpath : path ≠ [] := by
    rintro rfl
    exact hname rfl
  refine resolve_of_walk ((basename_append path rest).trans (basename_append text rest).symm) ?_ _
  rw [basename_eq cur path base] at hname hfind
  rw [walkFrom] at hwalk
  rw [walkFrom, walkFrom, startOf_append path rest base hpath, startOf_append text rest _ hne]
  dsimp only
  rw [walk_append follow_keep (startOf_ne_nil text _) (components_ne_nil rest) hplain
    (basename_eq cur text (some d) ▸ hdot), ← follow_text htext hplain]
  -- the last name of the path is that of the link
  obtain ⟨names, name, hnames⟩ :=
    (List.eq_nil_or_concat' (startOf cur path base).2).resolve_left (startOf_ne_nil path base)
  rw [hnames] at hwalk hfind ⊢
  rw [show (names ++ [name]).getLastD [] = name by simp] at hfind
  obtain ⟨hs, hlast⟩ := walk_last (components rest) hwalk
  rw [List.append_assoc, List.singleton_append, hlast, walk_cons hs (components_ne_nil rest), step,
    hfind]
  change andThen (fs.igets (d.1, de.inode) >>= _) _ = _
  rw [hget]
  rfl

theorem resolveLast_plain
    (hkeep : ∀ d x, (fs.inode x).isLnk = false → follow d x = .ok (some x))
    (hplain : ∀ d' b de x, fs.find cur d name = .ok (d', some (b, de)) →
      fs.igets (d'.1, de.inode) = .ok x → (fs.inode x).isLnk = false) :
    fs.resolveLast cur follow d name true = fs.step cur keep d name := by
  rw [resolveLast, step]
  cases hf : fs.find cur d name with
  | error c => rfl
  | ok r =>
    obtain ⟨d', found⟩ := r
    cases found with
    | none => rfl
    | some found =>
      obtain ⟨b, de⟩ := found
      change (fs.igets (d'.1, de.inode) >>= _) = (fs.igets (d'.1, de.inode) >>= _)
      cases hget : fs.igets (d'.1, de.inode) with
      | error c => rfl
      | ok x =>
        change (follow d' x >>= _) = _
        rw [hkeep d' x (hplain d' b de x hf hget)]
        rfl

/-- A path that leads to no link is looked up alike with `follow_links` and without. -/
theorem resolve_plain (hplain : fs.Plain cur (startOf cur text base).2 (startOf cur text base).1) :
    fs.resolve cur (fs.follow cur) text base true =
      fs.lookUp cur keep (startOf cur text base).2 (startOf cur text base).1 := by
  rw [← lookUp_plain follow_keep hplain, walk_lookUp (startOf_ne_nil text base), resolve, walkFrom,
    basename_eq cur text base]
  obtain ⟨names, name, hnames⟩ :=
    (List.eq_nil_or_concat' (startOf cur text base).2).resolve_left (startOf_ne_nil text base)
  rw [hnames] at hplain ⊢
  rw [show (names ++ [name]).getLastD [] = name by simp]
  cases hwalk : fs.walk cur (fs.follow cur) (names ++ [name]) (startOf cur text base).1 with
  | error c => rfl
  | ok r =>
    cases r with
    | none => rfl
    | some dir =>
      refine ite_congr rfl (fun _ => rfl) fun hname => ?_
      exact resolveLast_plain follow_keep fun d' b de x hf hget =>
        plain_last follow_keep hplain hname hwalk hf hget

/-- A path that ends with the link leads to what the text names, if it names anything. -/
theorem resolve_link (h : fs.Through cur path base d x) (htext : fs.HasText x text)
    (hplain : fs.Plain cur (startOf cur text (some d)).2 (startOf cur text (some d)).1)
    (hnone : fs.resolve cur (fs.follow cur) text (some d) true ≠ .ok none) :
    fs.resolve cur (fs.follow cur) path base true =
      fs.resolve cur (fs.follow cur) text (some d) true := by
  obtain ⟨dir, b, de, hwalk, hname, hfind, hget⟩ := h
  rw [resolve_plain hplain, ← follow_text htext hplain] at hnone ⊢
  rw [resolve, hwalk]
  change (if basename path = [] then _ else _) = _
  rw [if_neg hname, resolveLast, hfind]
  change (fs.igets (d.1, de.inode) >>= _) = _
  rw [hget]
  change (fs.follow cur d x >>= _) = _
  rcases hfollow : fs.follow cur d x with c | _ | y
  · rfl
  · exact absurd hfollow hnone
  · rfl

/-! ### What is found still -/

/-- Entry `j` is the first that has the name. -/
theorem find_eq_some_iff {b : ℕ × ℕ} {de : DirEntry} {key : Name}
    (hex : fs.exchange cur d name = (d', key)) :
    fs.find cur d name = .ok (d', some (b, de)) ↔
      ∃ j < fs.entries d, (∀ k < j, fs.stops d' key k = false) ∧
        fs.dirBuf d' (fs.bmap d' (j / dirEntriesPerBlock)) = some b ∧
        fs.entry b.1 b.2 (j % dirEntriesPerBlock) = de ∧ nameMatches key de = true := by
  rw [find, hex]
  dsimp only
  constructor
  · intro h
    split at h
    case h_1 => cases h
    case h_2 =>
      cases hscan : fs.scanFrom d' key (fs.entries d) 0 with
      | error c =>
        rw [hscan] at h
        cases h
      | ok found =>
        rw [hscan] at h
        cases h
        rw [scanFrom] at hscan
        split at hscan
        case h_1 => cases hscan
        case h_2 j hj =>
          obtain ⟨hstop, hmem, hbefore⟩ := List.find?_range'_eq_some.mp hj
          rw [List.mem_range'_1] at hmem
          split at hscan
          case h_1 => split at hscan <;> cases hscan
          case h_2 b' hb =>
            cases hscan
            rw [stops, hb] at hstop
            refine ⟨j, by omega, fun k hk => ?_, hb, rfl, hstop⟩
            simpa using hbefore k (Nat.zero_le k) hk
  · rintro ⟨j, hj, hbefore, hb, rfl, hmatch⟩
    have hfirst : ∃ b₀, fs.dirBuf d' (fs.bmap d' 0) = some b₀ := by
      by_cases hzero : j = 0
      · exact ⟨b, by rwa [hzero] at hb⟩
      · have hstop := hbefore 0 (Nat.pos_of_ne_zero hzero)
        rw [stops] at hstop
        split at hstop
        case h_1 => cases hstop
        case h_2 b₀ hb₀ => exact ⟨b₀, hb₀⟩
    obtain ⟨b₀, hb₀⟩ := hfirst
    have hfind : (List.range' 0 (fs.entries d - 0)).find? (fs.stops d' key) = some j := by
      rw [List.find?_range'_eq_some]
      refine ⟨?_, ?_, fun k _ hk => ?_⟩
      · rw [stops, hb]
        exact hmatch
      · rw [List.mem_range'_1]
        omega
      · simpa using hbefore k hk
    rw [hb₀]
    dsimp only
    rw [scanFrom, hfind]
    dsimp only
    rw [hb]
    rfl

/-- What an entry is found under it is found under still, where no other entry gets the name. -/
theorem find_mono {fs' : Disks} {b : ℕ × ℕ} {de : DirEntry} {key : Name}
    (hex : fs.exchange cur d name = (d', key)) (hex' : fs'.exchange cur d name = (d', key))
    (hle : fs.entries d ≤ fs'.entries d)
    (hentry : ∀ j b, j < fs.entries d → (∀ k < j, fs.stops d' key k = false) →
      fs.dirBuf d' (fs.bmap d' (j / dirEntriesPerBlock)) = some b →
      ∃ b', fs'.dirBuf d' (fs'.bmap d' (j / dirEntriesPerBlock)) = some b' ∧
        (fs'.entry b'.1 b'.2 (j % dirEntriesPerBlock) = fs.entry b.1 b.2 (j % dirEntriesPerBlock) ∨
          nameMatches key (fs.entry b.1 b.2 (j % dirEntriesPerBlock)) = false ∧
          nameMatches key (fs'.entry b'.1 b'.2 (j % dirEntriesPerBlock)) = false))
    (h : fs.find cur d name = .ok (d', some (b, de))) :
    ∃ b', fs'.find cur d name = .ok (d', some (b', de)) := by
  obtain ⟨j, hj, hbefore, hb, rfl, hmatch⟩ := (find_eq_some_iff hex).mp h
  obtain ⟨b', hb', hsame⟩ := hentry j b hj hbefore hb
  refine ⟨b', (find_eq_some_iff hex').mpr ⟨j, by omega, fun k hk => ?_, hb', ?_, hmatch⟩⟩
  · have hstop := hbefore k hk
    rw [stops] at hstop
    split at hstop
    case h_1 => cases hstop
    case h_2 c hc =>
      obtain ⟨c', hc', hsame'⟩ :=
        hentry k c (hk.trans hj) (fun l hl => hbefore l (hl.trans hk)) hc
      rw [stops, hc']
      rcases hsame' with heq | ⟨-, hnot⟩
      · dsimp only
        rw [heq]
        exact hstop
      · exact hnot
  · rcases hsame with heq | ⟨hnot, -⟩
    · exact heq
    · rw [hmatch] at hnot
      cases hnot

/-- What a process finds among the inodes of `P` it finds in another state of the disks. -/
structure Extends (fs fs' : Disks) (cur : Current) (P : InodeId → Prop) : Prop where
  searchable : ∀ d, P d → fs.Searchable cur d → fs'.Searchable cur d
  find : ∀ d name d' b de, P d → fs.Searchable cur d →
    fs.find cur d name = .ok (d', some (b, de)) →
      ∃ b', fs'.find cur d name = .ok (d', some (b', de))
  igets : ∀ id, fs'.igets id = fs.igets id
  isLnk : ∀ x, P x → (fs'.inode x).isLnk = (fs.inode x).isLnk
  text : ∀ x text, P x → fs.HasText x text → fs'.HasText x text

variable {fs' : Disks} {P : InodeId → Prop}
  {follow' : InodeId → InodeId → Except Crash (Option InodeId)}

theorem Extends.step (he : fs.Extends fs' cur P) (hc : fs.Closed cur P)
    (hfollow : ∀ d x y, P d → P x → follow d x = .ok (some y) → follow' d x = .ok (some y))
    (hd : P d) (hs : fs.Searchable cur d) (h : fs.step cur follow d name = .ok (some x)) :
    fs'.step cur follow' d name = .ok (some x) := by
  obtain ⟨d', b, de, y, hf, hget, hx⟩ := step_some h
  obtain ⟨hd', hfound⟩ := hc.find d name d' _ hd hs hf
  obtain ⟨b', hf'⟩ := he.find d name d' b de hd hs hf
  rw [Disks.step, hf']
  change (fs'.igets (d'.1, de.inode) >>= _) = _
  rw [he.igets, hget]
  exact hfollow d' y x hd' (hfound b de y rfl hget) hx

theorem Extends.walk (he : fs.Extends fs' cur P) (hc : fs.Closed cur P) (hP : Follows P follow)
    (hfollow : ∀ d x y, P d → P x → follow d x = .ok (some y) → follow' d x = .ok (some y))
    (hd : P d) (h : fs.walk cur follow names d = .ok (some x)) :
    fs'.walk cur follow' names d = .ok (some x) := by
  induction names generalizing d with
  | nil => exact h
  | cons name names ih =>
    by_cases hs : fs.Searchable cur d
    · have hs' := he.searchable d hd hs
      by_cases hnames : names = []
      · subst hnames
        rw [walk_single, if_pos hs] at h
        rw [walk_single, if_pos hs', ← h]
      · rw [walk_cons hs hnames] at h
        rw [walk_cons hs' hnames]
        rcases hstep : fs.step cur follow d name with c | _ | y <;> rw [hstep] at h
        · cases h
        · cases h
        · obtain ⟨d', b, de, z, hf, hget, hy⟩ := step_some hstep
          obtain ⟨hd', hfound⟩ := hc.find d name d' _ hd hs hf
          rw [he.step hc hfollow hd hs hstep]
          exact ih (hP d' z y hd' (hfound b de z rfl hget) hy) h
    · rw [Disks.walk, if_neg hs] at h
      cases h

theorem Extends.walkFrom (he : fs.Extends fs' cur P) (hc : fs.Closed cur P)
    (hP : Follows P follow)
    (hfollow : ∀ d x y, P d → P x → follow d x = .ok (some y) → follow' d x = .ok (some y))
    (hbase : P (base.getD cur.pwd)) (h : fs.walkFrom cur follow path base = .ok (some x)) :
    fs'.walkFrom cur follow' path base = .ok (some x) := by
  refine he.walk hc hP hfollow ?_ h
  rw [startOf]
  split
  · exact hc.root
  · exact hbase

theorem Extends.resolve (he : fs.Extends fs' cur P) (hc : fs.Closed cur P)
    (hP : Follows P follow)
    (hfollow : ∀ d x y, P d → P x → follow d x = .ok (some y) → follow' d x = .ok (some y))
    (hbase : P (base.getD cur.pwd)) (h : fs.resolve cur follow path base false = .ok (some x)) :
    fs'.resolve cur follow' path base false = .ok (some x) := by
  obtain ⟨dir, hwalk, h⟩ := Except.ok_of_bind h
  cases dir with
  | none => cases h
  | some dir =>
    obtain ⟨hdir, hs⟩ := hc.walkFrom hP base hbase hwalk
    rw [Disks.resolve, he.walkFrom hc hP hfollow hbase hwalk]
    change (if basename path = [] then _ else _) = _
    dsimp only at h
    split at h
    case isTrue hname => rw [if_pos hname, h]
    case isFalse hname =>
      rw [resolveLast_eq] at h
      rw [if_neg hname, resolveLast_eq]
      refine he.step hc (fun d x y _ _ hy => ?_) hdir hs h
      exact hy

/-- The texts of links lead to the same inodes. -/
theorem Extends.follows (he : fs.Extends fs' cur P) (hc : fs.Closed cur P) {y : InodeId}
    (hd : P d) (hx : P x) (h : fs.follow cur d x = .ok (some y)) :
    fs'.follow cur d x = .ok (some y) := by
  by_cases hlnk : (fs.inode x).isLnk = true
  · rw [Disks.follow, if_pos hlnk] at h
    cases hb : fs.dirBuf x (fs.bmap x 0) with
    | none =>
      rw [hb] at h
      cases h
    | some b =>
      rw [hb] at h
      obtain ⟨hlnk', b', hb', htext⟩ := he.text x _ hx ⟨hlnk, b, hb, rfl⟩
      rw [Disks.follow, if_pos hlnk', hb']
      dsimp only at h ⊢
      rw [htext]
      refine he.resolve hc follows_kernel (fun d' x' y' _ hx' hy' => ?_) hd h
      rw [followKernel] at hy' ⊢
      rw [he.isLnk x' hx', hy']
  · rw [follow_keep d x (by simpa using hlnk)] at h
    rw [follow_keep d x (by rw [he.isLnk x hx]; simpa using hlnk), h]

end Disks

end Fs
