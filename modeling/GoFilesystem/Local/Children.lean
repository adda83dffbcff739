import GoFilesystem.Local.Shallow

/-!
# What a listing that is not recursive shows

The walk enters every child directory it comes to, though it passes over what is in
there.  An error of that read is an obstacle (`obstacleOf`) and ends the listing, which
otherwise depends on the directory only (`shallowList_eq_iff`).  Without an obstacle the
listing shows the children of the directory in the order of their names, up to the limit;
`ParsePath` rewrites backslashes, so that this holds for the names that have none
(`lists_iff`).
-/

namespace GoFilesystem.Local

open Go Conc Posix

variable {a : Adapter} {f : Following} {T T' : LinkTree} {limit : Int} {s l : Location}
  {directory : Path} {children : List DirEntry} {err : Err} {entries : List Entry}
  {child : Str × Item}

/-! ## The directory that is read -/

/-- Objects as the entries of the directory they are in. -/
def dirEntries (children : List (Str × Item)) : List DirEntry :=
  children.map fun child ↦ dirEntryOf child.1 child.2

/-- The walk has come to a directory and can read it. -/
structure Reads (f : Following) (T : LinkTree) (s l : Location) : Prop where
  isName : ∀ x ∈ s, IsName x
  resolves : T.resolveFrom f f.limit [] s = .ok l
  directory : T.kindAt l = some .directory

theorem readDirOf_eq (hs : ∀ x ∈ s, IsName x)
    (hread : readDirOf f T (nameAt s) = (children, none)) :
    ∃ l, Reads f T s l ∧ children = dirEntries (T.children l) := by
  unfold readDirOf at hread
  cases hresolve : T.resolve f (nameAt s) with
  | error e => rw [hresolve] at hread; simp at hread
  | ok l =>
      rw [hresolve] at hread
      cases hitem : T.lookup l with
      | none => simp [hitem] at hread
      | some item =>
          simp only [hitem] at hread
          split_ifs at hread with hkind hreadable
          · simp at hread
          · simp at hread
          · refine ⟨l, ⟨hs, ?_, ?_⟩, (congrArg Prod.fst hread).symm⟩
            · rw [← LinkTree.resolve_eq (spells_nameAt hs), hresolve]
            · rw [LinkTree.kindAt_of_lookup hitem, not_not.mp hkind]

theorem opening_eq_inr (hs : ∀ x ∈ s, IsName x) (h : opening f T s = .inr children) :
    ∃ l, Reads f T s l ∧ children = dirEntries (T.children l) :=
  readDirOf_eq hs (readDirOf_of_opening h).2

section Reads

variable (h : Reads f T s l) {name : Str} {item : Item}

include h in
theorem Reads.spells (hitem : T.lookup (l ++ [name]) = some item) :
    Spells (nameAt (s ++ [name])) (s ++ [name]) := by
  refine spells_nameAt fun x hx ↦ (List.mem_append.mp hx).elim (h.isName x) fun hx ↦ ?_
  rw [List.mem_singleton.mp hx]
  exact LinkTree.isName_of_lookup (ne_of_eq_of_ne hitem nofun)

include h in
/-- `Info` of an entry describes the object. -/
theorem Reads.lstat (hitem : T.lookup (l ++ [name]) = some item) :
    T.lstat f (nameAt (s ++ [name])) = .ok item :=
  LinkTree.lstat_of_resolve (h.spells hitem) h.resolves h.directory hitem

/-- The errors of reading a directory that is there. -/
def IsObstacle (err : Err) : Prop :=
  ∃ name, err = invalidName "readdir" name ∨
    err = pathError "openat" name (.new "permission denied" [])

include h in
theorem Reads.walkedDir_child (hitem : T.lookup (l ++ [name]) = some item)
    (hkind : item.kind = .directory) (herr : (walkedDir f T (nameAt (s ++ [name]))).2 = some err) :
    IsObstacle err := by
  have hname : IsName name := LinkTree.isName_of_lookup (ne_of_eq_of_ne hitem nofun)
  have hkindAt : T.kindAt (l ++ [name]) = some .directory := by
    rw [LinkTree.kindAt_of_lookup hitem, hkind]
  have hresolve : T.resolve f (nameAt (s ++ [name])) = .ok (l ++ [name]) := by
    rw [LinkTree.resolve_eq (h.spells hitem)]
    exact LinkTree.resolveFrom_append_singleton hname h.resolves h.directory hkindAt
  unfold walkedDir readDirOf at herr
  rw [hresolve] at herr
  dsimp only at herr
  rw [hitem] at herr
  dsimp only at herr
  rw [if_neg (not_not.mpr hkind)] at herr
  split_ifs at herr
  · exact ⟨_, .inl (Option.some.inj herr).symm⟩
  · exact ⟨_, .inr (Option.some.inj herr).symm⟩

end Reads

/-! ## Errors -/

theorem IsObstacle.mapError_eq (h : IsObstacle err) : mapError directory err = err := by
  obtain ⟨name, rfl | rfl⟩ := h
  · rfl
  · rfl

/-- The errors that come from an entry itself: a link that is denied, or a name that is
not a path. -/
def IsRefusal (err : Err) : Prop :=
  (∃ name, err = .new "local: symbolic link %q is denied" [name]) ∨ ∃ e : PathError, err = e.err

theorem IsRefusal.mapError_eq (h : IsRefusal err) : mapError directory err = err := by
  rcases h with ⟨name, rfl⟩ | ⟨e, rfl⟩
  · rfl
  · rfl

theorem IsRefusal.ne_of_isObstacle {err err' : Err} (h : IsRefusal err) (h' : IsObstacle err') :
    err ≠ err' := by
  rcases h with ⟨name, rfl⟩ | ⟨e, rfl⟩
  · obtain ⟨name', rfl | rfl⟩ := h'
    · exact nofun
    · exact nofun
  · have hformats : "%w %q: %s" ≠ "readdir" ++ " %s: %w" ∧ "%w %q: %s" ≠ "openat" ++ " %s: %w" := by
      decide
    obtain ⟨name', rfl | rfl⟩ := h'
    · exact fun heq ↦ hformats.1 (Err.wrap.inj heq).1
    · exact fun heq ↦ hformats.2 (Err.wrap.inj heq).1

/-- The entries of the directory that a walk has come to. -/
def FromDirectory (T : LinkTree) (l : Location) (children : List DirEntry) : Prop :=
  ∀ entry ∈ children, ∃ item, T.lookup (l ++ [entry.name]) = some item ∧
    entry = dirEntryOf entry.name item

theorem fromDirectory_dirEntries (T : LinkTree) (l : Location) :
    FromDirectory T l (dirEntries (T.children l)) := by
  intro entry hentry
  obtain ⟨⟨name, item⟩, hchild, rfl⟩ := List.mem_map.mp hentry
  exact ⟨item, T.mem_children.mp hchild, rfl⟩

theorem obstacle_eq_some (h : Reads f T s l) (hchildren : FromDirectory T l children)
    (hsome : obstacle a f T limit s children entries = some err) : IsObstacle err := by
  induction children generalizing entries with
  | nil => contradiction
  | cons entry rest ih =>
      have hrest : FromDirectory T l rest := fun e he ↦ hchildren e (List.mem_cons_of_mem _ he)
      obtain ⟨item, hitem, hentry⟩ := hchildren entry List.mem_cons_self
      unfold obstacle at hsome
      rcases listAt_cases (a := a) f T limit (s ++ [entry.name]) entry entries with
        ⟨entries', hlist⟩ | ⟨ending, entries', hlist⟩
      · rw [hlist] at hsome
        dsimp only at hsome
        split_ifs at hsome with hdirectory
        · cases hread : (walkedDir f T (nameAt (s ++ [entry.name]))).2 with
          | none => rw [hread] at hsome; exact ih hrest hsome
          | some err' =>
              rw [hread] at hsome
              cases hsome
              rw [hentry] at hdirectory
              exact h.walkedDir_child hitem (of_decide_eq_true hdirectory) hread
        · exact ih hrest hsome
      · rw [hlist] at hsome
        contradiction

/-- Files are no obstacles. -/
theorem obstacle_eq_none (h : ∀ entry ∈ children, entry.directory = false) :
    obstacle a f T limit s children entries = none := by
  induction children generalizing entries with
  | nil => rfl
  | cons entry rest ih =>
      unfold obstacle
      split
      · rw [h entry List.mem_cons_self]
        exact ih fun entry hentry ↦ h entry (List.mem_cons_of_mem _ hentry)
      · rfl

/-- An entry of the directory is refused, or it is listed. -/
theorem listAt_fail {entry : DirEntry} {entries entries' : List Entry} {item : Item}
    (h : Reads f T s l) (hitem : T.lookup (l ++ [entry.name]) = some item)
    (hlist : listAt a f T limit (s ++ [entry.name]) entry entries = (.fail (.err err), entries')) :
    IsRefusal err := by
  unfold listAt at hlist
  rw [h.lstat hitem] at hlist
  split_ifs at hlist with hdenied
  · obtain ⟨heq, -⟩ := Prod.mk.inj hlist
    cases heq
    exact .inl ⟨_, rfl⟩
  · dsimp only [described, collect] at hlist
    cases hparse : parsePath (nameAt (s ++ [entry.name])) with
    | error e =>
        rw [hparse] at hlist
        obtain ⟨heq, -⟩ := Prod.mk.inj hlist
        cases heq
        exact .inr ⟨e, rfl⟩
    | ok path =>
        rw [hparse] at hlist
        dsimp only [goOn] at hlist
        generalize entries ++ _ = entries₁ at hlist
        split_ifs at hlist
        · obtain ⟨heq, -⟩ := Prod.mk.inj hlist
          exact nomatch WalkResult.fail.inj heq
        · exact nomatch (Prod.mk.inj hlist).1

theorem direct_fail {entries entries' : List Entry} (h : Reads f T s l)
    (hchildren : FromDirectory T l children)
    (hdirect : direct a f T limit s children entries = (.fail (.err err), entries')) :
    IsRefusal err := by
  induction children generalizing entries with
  | nil => exact nomatch (Prod.mk.inj hdirect).1
  | cons entry rest ih =>
      obtain ⟨item, hitem, -⟩ := hchildren entry List.mem_cons_self
      unfold direct at hdirect
      rcases listAt_cases (a := a) f T limit (s ++ [entry.name]) entry entries with
        ⟨entries₁, hlist⟩ | ⟨ending, entries₁, hlist⟩
      · rw [hlist] at hdirect
        exact ih (fun e he ↦ hchildren e (List.mem_cons_of_mem _ he)) hdirect
      · rw [hlist] at hdirect
        obtain ⟨heq, -⟩ := Prod.mk.inj hdirect
        cases heq
        exact listAt_fail h hitem hlist

/-! ## What depends on more than the directory -/

/-- A listing with an obstacle does not return what it would return without. -/
theorem directList_ne_of_obstacleOf (h : obstacleOf a f T limit directory = some err) :
    IsObstacle err ∧ directList a f T limit directory ≠ .error err := by
  unfold obstacleOf reached at h
  unfold directList
  cases hchecked : checked a f T directory with
  | some denied => rw [hchecked] at h; contradiction
  | none =>
      rw [hchecked] at h
      cases hopening : opening f T directory.segments with
      | inl result => rw [hopening] at h; contradiction
      | inr children =>
          rw [hopening] at h
          obtain ⟨l, hreads, rfl⟩ :=
            opening_eq_inr (fun x hx ↦ isName_of_mem_segments hx) hopening
          have hchildren := fromDirectory_dirEntries T l
          have hobstacle := obstacle_eq_some hreads hchildren h
          refine ⟨hobstacle, fun heq ↦ ?_⟩
          dsimp only at heq
          rcases hdirect : direct a f T limit directory.segments (dirEntries (T.children l)) [] with
            ⟨result, entries⟩
          rw [hdirect] at heq
          rcases result with _ | _ | _ | ⟨_ | refused⟩
          · exact nomatch heq
          · exact nomatch heq
          · exact nomatch heq
          · exact nomatch heq
          · have hrefusal := direct_fail hreads hchildren hdirect
            refine hrefusal.ne_of_isObstacle hobstacle ?_
            rw [← hrefusal.mapError_eq]
            exact Except.error.inj heq

/-- Two roots that agree on a directory have the same listing of it exactly if the walk
meets the same obstacle in both. -/
theorem shallowList_eq_iff (h : Agree f T T' directory) :
    shallowList a f T limit directory = shallowList a f T' limit directory ↔
      obstacleOf a f T limit directory = obstacleOf a f T' limit directory := by
  have hsame : directList a f T limit directory = directList a f T' limit directory :=
    h.directList_eq
  have hne := @directList_ne_of_obstacleOf a f T limit directory
  have hne' := @directList_ne_of_obstacleOf a f T' limit directory
  rw [← hsame] at hne'
  rw [shallowList_eq, shallowList_eq, ← hsame]
  cases hleft : obstacleOf a f T limit directory with
  | none =>
      cases hright : obstacleOf a f T' limit directory with
      | none => simp
      | some err =>
          obtain ⟨hobstacle, hdirect⟩ := hne' hright
          refine iff_of_false ?_ nofun
          dsimp only
          rwa [hobstacle.mapError_eq]
  | some err =>
      obtain ⟨hobstacle, hdirect⟩ := hne hleft
      cases hright : obstacleOf a f T' limit directory with
      | none =>
          refine iff_of_false ?_ nofun
          dsimp only
          rw [hobstacle.mapError_eq]
          exact hdirect.symm
      | some err' =>
          obtain ⟨hobstacle', -⟩ := hne' hright
          dsimp only
          rw [hobstacle.mapError_eq, hobstacle'.mapError_eq, Except.error.injEq, Option.some.injEq]

/-! ## The children -/

/-- A list up to a limit, if there is one. -/
def cut {α : Type} (limit : Int) (xs : List α) : List α :=
  if 0 < limit then xs.take limit.toNat else xs

theorem mem_of_mem_cut {α : Type} {xs : List α} {x : α} (h : x ∈ cut limit xs) : x ∈ xs := by
  unfold cut at h
  split_ifs at h
  · exact List.mem_of_mem_take h
  · exact h

theorem pairwise_cut {α : Type} {R : α → α → Prop} {xs : List α} (h : xs.Pairwise R) :
    (cut limit xs).Pairwise R := by
  unfold cut
  split_ifs
  · exact h.take
  · exact h

theorem map_cut {α β : Type} (g : α → β) (xs : List α) :
    (cut limit xs).map g = cut limit (xs.map g) := by
  unfold cut
  split_ifs
  · exact List.map_take
  · rfl

/-- How a listing shows the kind of an object: a link is a file. -/
def kindOf (item : Item) : EntryKind := if item.kind = .directory then .directory else .file

/-- The entry of a child, if its name makes a path. -/
def childEntry (s : Location) (child : Str × Item) : Option Entry :=
  (parsePath (nameAt (s ++ [child.1]))).toOption.map fun path ↦
    { path, kind := kindOf child.2, size := child.2.size, modified := child.2.modified }

/-- No child is a link that is denied, and every name of a child makes a path. -/
structure Listable (a : Adapter) (s : Location) (children : List (Str × Item)) : Prop where
  allowed : ∀ child ∈ children, child.2.kind.isLink = true → a.symlinkPolicy ≠ .denySymlinks
  parses : ∀ child ∈ children, ∃ path, parsePath (nameAt (s ++ [child.1])) = .ok path

theorem Listable.tail {children : List (Str × Item)} (h : Listable a s (child :: children)) :
    Listable a s children :=
  ⟨fun c hc ↦ h.allowed c (List.mem_cons_of_mem _ hc),
    fun c hc ↦ h.parses c (List.mem_cons_of_mem _ hc)⟩

theorem Listable.head {children : List (Str × Item)} (h : Listable a s (child :: children)) :
    ∃ entry, childEntry s child = some entry ∧
      ∀ (_ : Reads f T s l) (_ : T.lookup (l ++ [child.1]) = some child.2) entries,
        listAt a f T limit (s ++ [child.1]) (dirEntryOf child.1 child.2) entries =
          goOn limit (entries ++ [entry]) := by
  obtain ⟨path, hparse⟩ := h.parses child List.mem_cons_self
  refine ⟨_, by rw [childEntry, hparse]; rfl, fun hreads hitem entries ↦ ?_⟩
  have hallowed : ((dirEntryOf child.1 child.2).link &&
      decide (a.symlinkPolicy = .denySymlinks)) = false := by
    rw [Bool.and_eq_false_iff, decide_eq_false_iff_not]
    by_cases hlink : child.2.kind.isLink = true
    · exact .inr (h.allowed child List.mem_cons_self hlink)
    · exact .inl (Bool.not_eq_true _ ▸ hlink)
  unfold listAt
  rw [hallowed, if_neg Bool.false_ne_true, hreads.lstat hitem, described, collect, hparse]
  simp only [dirEntryOf, kindOf, infoOf, decide_eq_true_eq]

/-- Without an obstacle a listing shows the children up to the limit. -/
theorem conclude_direct {children : List (Str × Item)} (hreads : Reads f T s l)
    (hchildren : ∀ child ∈ children, T.lookup (l ++ [child.1]) = some child.2)
    (h : Listable a s children) (entries : List Entry)
    (hentries : 0 < limit → (entries.length : Int) < limit) :
    conclude directory (direct a f T limit s (dirEntries children) entries) =
      .ok (sortEntries (cut limit (entries ++ children.filterMap (childEntry s)))) := by
  induction children generalizing entries with
  | nil =>
      have hcut : cut limit (entries ++ []) = entries := by
        unfold cut
        split_ifs with hlimit
        · rw [List.append_nil]
          exact List.take_of_length_le (by have := hentries hlimit; omega)
        · exact List.append_nil _
      exact congrArg (fun entries ↦ Except.ok (sortEntries entries)) hcut.symm
  | cons child children ih =>
      obtain ⟨entry, hentry, hlist⟩ := h.head (f := f) (T := T) (l := l)
      have happend : entries ++ (child :: children).filterMap (childEntry s) =
          entries ++ [entry] ++ children.filterMap (childEntry s) := by
        rw [List.filterMap_cons_some hentry]
        simp
      rw [happend, dirEntries, List.map_cons, direct]
      rw [show (dirEntryOf child.1 child.2).name = child.1 from rfl,
        hlist hreads (hchildren child List.mem_cons_self) entries, goOn]
      by_cases hfull : 0 < limit ∧ limit ≤ (entries ++ [entry]).length
      · have hlength : limit.toNat = (entries ++ [entry]).length := by
          have := hentries hfull.1
          have := hfull.2
          simp only [List.length_append, List.length_singleton] at this ⊢
          omega
        rw [if_pos hfull, cut, if_pos hfull.1, hlength, List.take_left]
        rfl
      · rw [if_neg hfull]
        refine ih (fun c hc ↦ hchildren c (List.mem_cons_of_mem _ hc)) h.tail _ fun hlimit ↦ ?_
        rw [not_and] at hfull
        have := hfull hlimit
        omega

def shown (s : Location) (child : Str × Item) : Str × EntryKind × Nat × Time :=
  (nameAt (s ++ [child.1]), kindOf child.2, child.2.size, child.2.modified)

def said (entry : Entry) : Str × EntryKind × Nat × Time :=
  (entry.path.value, entry.kind, entry.size, entry.modified)

/-- A name without backslashes is not rewritten. -/
theorem value_of_parsePath_nameAt {path : Path} (hl : ∀ x ∈ l, IsName x ∧ backslash ∉ x)
    (hne : l ≠ []) (h : parsePath (nameAt l) = .ok path) : path.value = nameAt l := by
  refine value_of_parsePath h ?_ ?_
  · rw [nameAt_of_ne_nil hne, List.splitOn_intercalate slash (fun x hx ↦ (hl x hx).1.noSlash) hne]
    exact fun x hx ↦ ⟨(hl x hx).1.ne_nil, (hl x hx).1.ne_dot, (hl x hx).1.ne_parent⟩
  · rw [nameAt_of_ne_nil hne]
    intro hmem
    rcases mem_intercalate hmem with heq | ⟨x, hx, hmem⟩
    · exact absurd heq (by decide)
    · exact (hl x hx).2 hmem

/-- The entry of a child says what is to be said of it, unless its path was rewritten. -/
theorem said_childEntry {entry : Entry} (hs : ∀ x ∈ s, IsName x ∧ backslash ∉ x)
    (hchild : IsName child.1) (hbackslash : backslash ∉ child.1)
    (h : childEntry s child = some entry) : said entry = shown s child := by
  have hnames : ∀ x ∈ s ++ [child.1], IsName x ∧ backslash ∉ x := by
    intro x hx
    rcases List.mem_append.mp hx with hx | hx
    · exact hs x hx
    · rw [List.mem_singleton.mp hx]
      exact ⟨hchild, hbackslash⟩
  obtain ⟨path, hparse, rfl⟩ := Option.map_eq_some_iff.mp h
  have hvalue : path.value = nameAt (s ++ [child.1]) := by
    cases hresult : parsePath (nameAt (s ++ [child.1])) with
    | error e => rw [hresult] at hparse; contradiction
    | ok path' =>
        rw [hresult] at hparse
        cases hparse
        exact value_of_parsePath_nameAt hnames (by simp) hresult
  rw [said, shown, hvalue]

/-- A path has no backslash. -/
theorem backslash_notMem_value (p : Path) : backslash ∉ p.value := by
  rcases p.canonical with hroot | hnormal
  · rw [hroot]
    exact List.not_mem_nil
  · exact hnormal.noBackslash

theorem nameAt_lt {x y : Str} (h : x < y) : nameAt (s ++ [x]) < nameAt (s ++ [y]) := by
  by_cases hs : s = []
  · rw [hs, List.nil_append, List.nil_append, nameAt_singleton, nameAt_singleton]
    exact h
  · rw [nameAt_append hs (by simp), nameAt_append hs (by simp), nameAt_singleton, nameAt_singleton]
    have hlt : (nameAt s ++ [slash]) ++ x < (nameAt s ++ [slash]) ++ y := List.append_left_lt h
    simpa using hlt

theorem sortEntries_of_pairwise
    (h : entries.Pairwise fun left right ↦ left.path.value < right.path.value) :
    sortEntries entries = entries := by
  refine List.mergeSort_of_pairwise (h.imp fun hlt ↦ ?_)
  exact decide_eq_true hlt.le

/-- The entries of children without backslashes, in order. -/
theorem map_said_sortEntries {children : List (Str × Item)} {g : Str × Item → Entry}
    (hs : ∀ x ∈ s, IsName x ∧ backslash ∉ x) (hnames : ∀ child ∈ children, IsName child.1)
    (hg : ∀ child ∈ children, childEntry s child = some (g child))
    (hsorted : children.Pairwise fun child child' ↦ child.1 < child'.1) :
    (sortEntries (children.map g)).map said = children.map (shown s) ↔
      ∀ child ∈ children, backslash ∉ child.1 := by
  constructor
  · intro heq child hchild hmem
    have hshown : shown s child ∈ (sortEntries (children.map g)).map said := by
      rw [heq]
      exact List.mem_map_of_mem hchild
    obtain ⟨entry, -, hentry⟩ := List.mem_map.mp hshown
    refine backslash_notMem_value entry.path ?_
    have hvalue : entry.path.value = nameAt (s ++ [child.1]) := congrArg Prod.fst hentry
    rw [hvalue]
    by_cases hnil : s = []
    · rw [hnil, List.nil_append, nameAt_singleton]
      exact hmem
    · rw [nameAt_append hnil (by simp), nameAt_singleton]
      simp [hmem]
  · intro hbackslash
    have hsaid : ∀ child ∈ children, said (g child) = shown s child := fun child hchild ↦
      said_childEntry hs (hnames child hchild) (hbackslash child hchild) (hg child hchild)
    rw [sortEntries_of_pairwise, List.map_map]
    · exact List.map_congr_left hsaid
    · rw [List.pairwise_map]
      refine hsorted.imp_of_mem fun {child child'} hchild hchild' hlt ↦ ?_
      have hvalue : (g child).path.value = nameAt (s ++ [child.1]) :=
        congrArg Prod.fst (hsaid child hchild)
      have hvalue' : (g child').path.value = nameAt (s ++ [child'.1]) :=
        congrArg Prod.fst (hsaid child' hchild')
      rw [hvalue, hvalue']
      exact nameAt_lt hlt

/-- A directory that can be read: its name stands for one, and the links on the way are
allowed. -/
structure Readable (a : Adapter) (f : Following) (T : LinkTree) (directory : Path) (l : Location) :
    Prop where
  allowed : checked a f T directory = none
  resolves : T.resolve f (nameAt directory.segments) = .ok l
  item : ∃ item, T.lookup l = some item ∧ item.kind = .directory ∧ item.readable = true

theorem Readable.opening_eq (h : Readable a f T directory l)
    (hvalid : validPath (nameAt directory.segments) = true) :
    opening f T directory.segments = .inr (dirEntries (T.children l)) := by
  obtain ⟨item, hitem, hkind, hreadable⟩ := h.item
  have hstat : T.stat f (nameAt directory.segments) = .ok item := by
    rw [LinkTree.stat, h.resolves, LinkTree.describe, hitem]
  have hread : readDirOf f T (nameAt directory.segments) = (dirEntries (T.children l), none) := by
    unfold readDirOf
    rw [h.resolves]
    dsimp only
    rw [hitem]
    dsimp only
    rw [if_neg (not_not.mpr hkind), hreadable]
    rfl
  unfold opening walkedDir
  rw [hvalid, hstat, hread]
  simp [described, infoOf, hkind]

/-- A listing of a directory that can be read shows its children, each with its name, kind,
size and time, in the order of their names and up to the limit, exactly if the name of the
directory is valid UTF-8, the walk meets no obstacle, and no name of those children has a
backslash. -/
theorem lists_iff (h : Readable a f T directory l)
    (hlistable : Listable a directory.segments (T.children l)) :
    (∃ entries, shallowList a f T limit directory = .ok entries ∧
      entries.map said = (cut limit (T.children l)).map (shown directory.segments)) ↔
    validPath (nameAt directory.segments) = true ∧ obstacleOf a f T limit directory = none ∧
      ∀ child ∈ cut limit (T.children l), backslash ∉ child.1 := by
  cases hvalid : validPath (nameAt directory.segments) with
  | false =>
      refine iff_of_false ?_ fun h ↦ absurd h.1 Bool.false_ne_true
      rintro ⟨entries, heq, -⟩
      unfold shallowList shallowWalk opening at heq
      rw [h.allowed, hvalid] at heq
      exact nomatch heq
  | true =>
      have hopening := h.opening_eq hvalid
      obtain ⟨l', hreads, hchildren⟩ :=
        opening_eq_inr (fun x hx ↦ isName_of_mem_segments hx) hopening
      obtain rfl : l' = l := by
        have hresolve := h.resolves
        rw [LinkTree.resolve_eq (spells_nameAt hreads.isName), hreads.resolves] at hresolve
        exact Except.ok.inj hresolve
      have hitems : ∀ child ∈ T.children l', T.lookup (l' ++ [child.1]) = some child.2 :=
        fun child hchild ↦ T.mem_children.mp hchild
      have hentry : ∀ child, ∃ entry, child ∈ T.children l' →
          childEntry directory.segments child = some entry := by
        intro child
        by_cases hchild : child ∈ T.children l'
        · obtain ⟨path, hparse⟩ := hlistable.parses child hchild
          exact ⟨_, fun _ ↦ by rw [childEntry, hparse]; rfl⟩
        · exact ⟨{ path := .root, kind := .file }, fun hmem ↦ absurd hmem hchild⟩
      choose g hg using hentry
      have hfilter : (T.children l').filterMap (childEntry directory.segments) =
          (T.children l').map g := by
        rw [← List.filterMap_eq_map]
        exact List.filterMap_congr hg
      have hdirect : directList a f T limit directory =
          .ok (sortEntries ((cut limit (T.children l')).map g)) := by
        unfold directList
        rw [h.allowed, hopening]
        dsimp only
        rw [conclude_direct hreads hitems hlistable [] fun hlimit ↦ by simpa using hlimit,
          List.nil_append, hfilter, map_cut]
      have hsaid : (sortEntries ((cut limit (T.children l')).map g)).map said =
          (cut limit (T.children l')).map (shown directory.segments) ↔
            ∀ child ∈ cut limit (T.children l'), backslash ∉ child.1 := map_said_sortEntries
        (fun x hx ↦ Remote.isName_of_mem_segments hx)
        (fun child hchild ↦ LinkTree.isName_of_lookup
          (ne_of_eq_of_ne (hitems child (mem_of_mem_cut hchild)) nofun))
        (fun child hchild ↦ hg child (mem_of_mem_cut hchild))
        (pairwise_cut (T.pairwise_children l'))
      rw [shallowList_eq]
      cases hobstacle : obstacleOf a f T limit directory with
      | some err =>
          refine iff_of_false ?_ fun h ↦ nomatch h.2.1
          rintro ⟨entries, heq, -⟩
          exact nomatch heq
      | none =>
          dsimp only
          rw [hdirect]
          simp only [Except.ok.injEq, exists_eq_left', true_and, hsaid]

/-! ## The listing -/

section Listing

variable {cancelled : Ctx → Bool} {ctx : Ctx}

/-- A listing that is not recursive returns.  On two roots that agree on the directory it
returns the same exactly if the walks meet the same obstacle, or none; and a directory
that can be read, with no denied link and no name that is not a path in it, is listed
exactly if its own name is valid UTF-8, there is no obstacle and no name that is listed
has a backslash. -/
theorem list_direct_children (hctx : cancelled ctx = false) (hlimit : 0 ≤ limit) :
    Halts (listAnswers f cancelled) (list a ctx directory { limit }) T ∧
    ∀ r T₁, Eval (listAnswers f cancelled) (list a ctx directory { limit }) T r T₁ →
      (∀ T', Agree f T T' directory →
        ∀ r' T₂, Eval (listAnswers f cancelled) (list a ctx directory { limit }) T' r' T₂ →
          (r = r' ↔ obstacleOf a f T limit directory = obstacleOf a f T' limit directory)) ∧
      ∀ l, Readable a f T directory l → Listable a directory.segments (T.children l) →
        ((∃ entries, r = .ok entries ∧
            entries.map said = (cut limit (T.children l)).map (shown directory.segments)) ↔
          validPath (nameAt directory.segments) = true ∧ obstacleOf a f T limit directory = none ∧
            ∀ child ∈ cut limit (T.children l), backslash ∉ child.1) := by
  refine ⟨(ensures_list hctx hlimit).halts, fun r T₁ heval ↦ ?_⟩
  obtain ⟨-, rfl⟩ := heval.ensures (ensures_list hctx hlimit)
  refine ⟨fun T' hagree r' T₂ heval' ↦ ?_, fun l hreadable hlistable ↦
    lists_iff hreadable hlistable⟩
  obtain ⟨-, rfl⟩ := heval'.ensures (ensures_list hctx hlimit)
  exact shallowList_eq_iff hagree

end Listing

def house (readable : Bool) : LinkTree :=
  .flat [(.lit "a", { kind := .directory, readable })] (by simpa using (by decide : IsName _))

variable (readable : Bool)

theorem children_house :
    (house readable).children [] = [(.lit "a", { kind := .directory, readable })] :=
  LinkTree.children_flat (List.pairwise_singleton ..)

theorem reads_house : Reads ⟨8, true⟩ (house readable) [] [] :=
  ⟨nofun, rfl, rfl⟩

theorem readable_house (a : Adapter) (readable : Bool) :
    Readable a ⟨8, true⟩ (house readable) .root [] :=
  ⟨rfl, rfl, _, rfl, rfl, rfl⟩

theorem listable_house (a : Adapter) (readable : Bool) :
    Listable a [] ((house readable).children []) := by
  rw [children_house]
  refine ⟨fun child hchild hlink ↦ ?_, fun child hchild ↦ ?_⟩
  · rw [List.mem_singleton.mp hchild] at hlink
    exact nomatch hlink
  · rw [List.mem_singleton.mp hchild]
    have hparse : ∃ path, parsePath (.lit "a") = .ok path :=
      ⟨⟨.lit "a", by decide⟩, by decide +kernel⟩
    exact hparse

theorem readDirOf_house : readDirOf ⟨8, true⟩ (house readable) (nameAt []) =
    ([dirEntryOf (.lit "a") { kind := .directory }], none) := by
  have hread : readDirOf ⟨8, true⟩ (house readable) (nameAt []) =
      (dirEntries ((house readable).children []), none) := rfl
  rw [hread, children_house]
  rfl

theorem lstat_house :
    (house readable).lstat ⟨8, true⟩ (nameAt ([] ++ [.lit "a"])) =
      .ok { kind := .directory, readable } :=
  (reads_house readable).lstat rfl

theorem stat_house :
    (house readable).stat ⟨8, true⟩ (nameAt []) = .ok { kind := .directory } := rfl

theorem lstat_house_nil :
    (house readable).lstat ⟨8, true⟩ [] = .ok { kind := .directory } := rfl

theorem segments_root : Path.root.segments = [] := rfl

theorem agree_house : Agree ⟨8, true⟩ (house true) (house false) .root where
  way := by
    intro name hname
    obtain rfl : name = [] := List.mem_singleton.mp hname
    rw [lstat_house_nil, lstat_house_nil]
  itself := by
    rintro _ rfl
    rw [segments_root, stat_house, stat_house]
  contents := by
    rintro _ rfl
    rw [segments_root, readDirOf_house, readDirOf_house]
  children := by
    rintro entry hentry _ rfl
    rw [segments_root, readDirOf_house] at hentry
    obtain rfl := List.mem_singleton.mp hentry
    rw [segments_root]
    have hname : (dirEntryOf (.lit "a") { kind := .directory }).name = .lit "a" := rfl
    rw [hname, lstat_house, lstat_house]
    rfl

theorem walkedDir_house :
    (walkedDir ⟨8, true⟩ (house readable) (nameAt ([] ++ [.lit "a"]))).2 =
      if readable then none
      else some (pathError "openat" (.lit "a") (.new "permission denied" [])) := by
  cases readable with
  | true => rfl
  | false => rfl

/-- The walk enters the directory that is there. -/
theorem obstacleOf_house (a : Adapter) (readable : Bool) :
    obstacleOf a ⟨8, true⟩ (house readable) 0 .root =
      if readable then none
      else some (pathError "openat" (.lit "a") (.new "permission denied" [])) := by
  have hlistable := listable_house a readable
  have hopening := (readable_house a readable).opening_eq (by decide)
  rw [children_house] at hlistable hopening
  obtain ⟨entry, -, hlist⟩ := hlistable.head (f := ⟨8, true⟩) (T := house readable) (l := [])
  have hname : (dirEntryOf (.lit "a") { kind := .directory, readable }).name = .lit "a" := rfl
  have hdirectory : (dirEntryOf (.lit "a") { kind := .directory, readable }).directory = true := rfl
  unfold obstacleOf reached
  rw [(readable_house a readable).allowed, hopening]
  simp only [dirEntries, List.map_cons, List.map_nil, obstacle]
  rw [segments_root, hname, hlist (reads_house readable) rfl, hdirectory, walkedDir_house]
  cases readable with
  | true => rfl
  | false => rfl

theorem eval_list_house : ∃ T₁,
    Eval (listAnswers ⟨8, true⟩ fun _ ↦ false) (list ⟨.denySymlinks⟩ 0 .root {}) (house readable)
      (shallowList ⟨.denySymlinks⟩ ⟨8, true⟩ (house readable) 0 .root) T₁ := by
  have hlist : Ensures (listAnswers ⟨8, true⟩ fun _ ↦ false) True
      (list ⟨.denySymlinks⟩ 0 .root {}) (house readable) fun r T' ↦ T' = house readable ∧
        r = shallowList ⟨.denySymlinks⟩ ⟨8, true⟩ (house readable) 0 .root :=
    ensures_list rfl le_rfl
  obtain ⟨_, T₁, heval, -, rfl⟩ := hlist.eval
  exact ⟨T₁, heval⟩

theorem backslash_notMem_house :
    ∀ child ∈ cut 0 ((house readable).children []), backslash ∉ child.1 := by
  intro child hchild
  rw [children_house] at hchild
  obtain rfl := List.mem_singleton.mp hchild
  exact (by decide : backslash ∉ Str.lit "a")

/-- A root with a directory that can be read. -/
theorem list_direct_children_house : ∃ entries T₁,
    Eval (listAnswers ⟨8, true⟩ fun _ ↦ false) (list ⟨.denySymlinks⟩ 0 .root {}) (house true)
      (.ok entries) T₁ ∧
    entries.map said = [shown [] (.lit "a", { kind := .directory })] := by
  obtain ⟨T₁, heval⟩ := eval_list_house true
  have hlisted := ((list_direct_children rfl le_rfl).2 _ T₁ heval).2 [] (readable_house _ true)
    (listable_house _ true)
  obtain ⟨entries, hok, hentries⟩ := hlisted.mpr
    ⟨by decide, obstacleOf_house _ true, backslash_notMem_house true⟩
  rw [hok] at heval
  refine ⟨entries, T₁, heval, ?_⟩
  rw [hentries, children_house]
  rfl

/-- Two roots with a directory in them, which can be read in one of them only: the
listings differ, though the roots agree on what is listed, and one of them fails. -/
theorem list_enters_children : Agree ⟨8, true⟩ (house true) (house false) .root ∧
    Readable ⟨.denySymlinks⟩ ⟨8, true⟩ (house false) .root [] ∧
    Listable ⟨.denySymlinks⟩ [] ((house false).children []) ∧
    ∃ entries err T₁ T₂,
      Eval (listAnswers ⟨8, true⟩ fun _ ↦ false) (list ⟨.denySymlinks⟩ 0 .root {}) (house true)
        (.ok entries) T₁ ∧
      Eval (listAnswers ⟨8, true⟩ fun _ ↦ false) (list ⟨.denySymlinks⟩ 0 .root {}) (house false)
        (.error err) T₂ := by
  refine ⟨agree_house, readable_house _ false, listable_house _ false, ?_⟩
  obtain ⟨T₁, heval⟩ := eval_list_house true
  obtain ⟨T₂, heval'⟩ := eval_list_house false
  obtain ⟨entries, hok, -⟩ := (lists_iff (readable_house _ true) (listable_house _ true)).mpr
    ⟨by decide, obstacleOf_house _ true, backslash_notMem_house true⟩
  rw [hok] at heval
  rw [shallowList_eq, obstacleOf_house] at heval'
  exact ⟨entries, _, T₁, T₂, heval, heval'⟩

end GoFilesystem.Local
