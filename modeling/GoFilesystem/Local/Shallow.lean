import GoFilesystem.Local.Listing

/-!
# Listings that are not recursive

`List` without `Recursive` as a function of the tree.  The walk passes over everything
beneath the children of the directory, but it reads those of them that are directories
(`shallow`).  So it returns what can be said of the children alone (`direct`), unless
one of these directories is an `obstacle`; only that depends on more than the listed
directory (`Agree.directList_eq`).
-/

namespace GoFilesystem.Local

open Go Conc Posix

/-! ## The walk -/

variable {children : List DirEntry}

section Walk

variable {a : Adapter} {f : Following} {cancelled : Ctx → Bool} {T : LinkTree} {ctx : Ctx}
  {s : Location} {entries : List Entry}

theorem visitAt_child {limit : Int} (s : Location) (entry : DirEntry) (entries : List Entry) :
    visitAt a f T { limit } s [entry.name] entry entries =
      match listAt a f T limit (s ++ [entry.name]) entry entries with
      | (.ok, entries) =>
        if !entry.directory then (.inl .ok, entries)
        else
          match walkedDir f T (nameAt (s ++ [entry.name])) with
          | (children, none) => (.inr children, entries)
          | (_, some err) => (.inl (.fail (.err err)), entries)
      | (result, entries) => (.inl result, entries) :=
  if_neg (by simp)

variable (a f T) in
/-- The walk over the children of a directory when what is beneath them is passed over.
Those that are directories are read all the same. -/
def shallow (limit : Int) (s : Location) :
    List DirEntry → List Entry → WalkResult Ending × List Entry
  | [], entries => (.ok, entries)
  | entry :: rest, entries =>
    match visitAt a f T { limit } s [entry.name] entry entries with
    | (.inl .ok, entries) | (.inr _, entries) => shallow limit s rest entries
    | (.inl result, entries) => (result, entries)

variable (f T) in
/-- A bound for the number of rounds that the children of a directory take. -/
def cost (s : Location) (children : List DirEntry) : Nat :=
  (children.map fun entry ↦ (walkedDir f T (nameAt (s ++ [entry.name]))).1.length + 2).sum

variable (f T) in
/-- A bound for the number of rounds that a shallow walk of `s` takes from here. -/
def rounds (s : Location) : List (Str × List DirEntry) → Nat
  | [] => 0
  | [(_, rest)] => cost f T s rest + 1
  | (_, deep) :: (_, rest) :: _ => deep.length + cost f T s rest + 2

/-- Where a shallow walk of `s` is: at the children of `s`, or at those of one of them. -/
inductive Shallow (a : Adapter) (f : Following) (T : LinkTree) (limit : Int) (s : Location)
    (expected : WalkResult Ending × List Entry) :
    List (Str × List DirEntry) × List Entry → Prop
  | done {entries : List Entry} (h : expected = (.ok, entries)) :
      Shallow a f T limit s expected ([], entries)
  | children {rest : List DirEntry} {entries : List Entry} (hrest : ∀ e ∈ rest, IsName e.name)
      (h : shallow a f T limit s rest entries = expected) :
      Shallow a f T limit s expected ([(nameAt s, rest)], entries)
  | beneath {c : Str} {deep rest : List DirEntry} {entries : List Entry} (hc : IsName c)
      (hdeep : ∀ e ∈ deep, IsName e.name) (hrest : ∀ e ∈ rest, IsName e.name)
      (h : shallow a f T limit s rest entries = expected) :
      Shallow a f T limit s expected ([(nameAt (s ++ [c]), deep), (nameAt s, rest)], entries)

/-- A shallow walk of a directory, from its children on. -/
theorem ensures_walkShallow (hctx : cancelled ctx = false) (hs : ∀ x ∈ s, IsName x) {limit : Int}
    (hchildren : ∀ e ∈ children, IsName e.name) :
    Ensures (listAnswers f cancelled) True
      (Prog.loop (rootFS.walkNext (listFile a ctx (nameAt s) { limit }))
        ([(nameAt s, children)], entries)) T
      fun r T' ↦ T' = T ∧ r = shallow a f T limit s children entries := by
  generalize hexpected : shallow a f T limit s children entries = expected
  refine Ensures.loop (fun i T' ↦ T' = T ∧ Shallow a f T limit s expected i)
    (fun i _ ↦ rounds f T s i.1) ⟨rfl, .children hchildren hexpected⟩ ?_
  clear hexpected
  rintro i _ ⟨rfl, hi⟩
  cases hi with
  | done h => exact ⟨rfl, h.symm⟩
  | @children rest entries hrest h =>
      cases rest with
      | nil => exact ⟨⟨rfl, .done h.symm⟩, fun _ ↦ Nat.zero_lt_succ _⟩
      | cons entry rest =>
          have hentry := hrest entry List.mem_cons_self
          have hrest' : ∀ e ∈ rest, IsName e.name := fun e he ↦ hrest e (List.mem_cons_of_mem _ he)
          unfold Walkable.walkNext
          dsimp only
          rw [show rootFS.childName (nameAt s) entry = nameAt (s ++ [entry.name]) from
            join_nameAt hs hentry]
          refine (ensures_visit hctx hs (by simpa using hentry) (by simp)).bind ?_
          rintro _ _ ⟨rfl, rfl⟩
          unfold shallow at h
          obtain ⟨entries', hvisit | hvisit | ⟨ending, hvisit⟩⟩ :=
            visitAt_cases a f _ { limit } s [entry.name] entry entries
          · rw [hvisit] at h ⊢
            exact ⟨⟨rfl, .children hrest' h⟩, fun _ ↦ by simp [rounds, cost]⟩
          · rw [hvisit] at h ⊢
            refine ⟨⟨rfl, .beneath hentry (fun e he ↦ isName_of_mem_walkedDir he) hrest' h⟩, ?_⟩
            intro _
            simp only [rounds, cost, List.map_cons, List.sum_cons]
            omega
          · rw [hvisit] at h ⊢
            exact ⟨rfl, h⟩
  | @beneath c deep rest entries hc hdeep hrest h =>
      cases deep with
      | nil => exact ⟨⟨rfl, .children hrest h⟩, fun _ ↦ by dsimp only [rounds]; omega⟩
      | cons entry deep =>
          have hentry := hdeep entry List.mem_cons_self
          have hsc : ∀ x ∈ s ++ [c], IsName x := by
            simpa [or_imp, forall_and] using And.intro hs hc
          unfold Walkable.walkNext
          dsimp only
          rw [show rootFS.childName (nameAt (s ++ [c])) entry =
            nameAt (s ++ ([c] ++ [entry.name])) from
            (join_nameAt hsc hentry).trans (congrArg nameAt (List.append_assoc ..))]
          refine (ensures_visit hctx hs (by simpa using And.intro hc hentry) (by simp)).bind ?_
          rintro _ _ ⟨rfl, rfl⟩
          exact ⟨⟨rfl, .beneath hc (fun e he ↦ hdeep e (List.mem_cons_of_mem _ he)) hrest h⟩,
            fun _ ↦ by simp [rounds]⟩

end Walk

/-! ## The listing -/

section Listing

variable (a : Adapter) (f : Following) (T : LinkTree) (limit : Int) (directory : Path)

def checked : Option Err :=
  if directory.isRoot || a.symlinkPolicy = .allowInternalSymlinks then none
  else verdict directory (fun name ↦ described "lstat" name (T.lstat f name))
    (leadingNames (directory.value.splitOn slash))

/-- What the walk returns before it comes to the children of the directory, or these. -/
def opening (s : Location) : WalkResult Ending ⊕ List DirEntry :=
  if !validPath (nameAt s) then .inl (.fail (.err (invalidName "stat" (nameAt s))))
  else
    match described "stat" (nameAt s) (T.stat f (nameAt s)) with
    | .error err => .inl (.fail (.err err))
    | .ok info =>
      if !info.directory then .inl .ok
      else
        match walkedDir f T (nameAt s) with
        | (_, some err) => .inl (.fail (.err err))
        | (children, none) => .inr children

def shallowWalk (s : Location) : WalkResult Ending × List Entry :=
  match opening f T s with
  | .inl result => (result, [])
  | .inr children => shallow a f T limit s children []

def ending : WalkResult Ending × List Entry → Option Ending × List Entry
  | (.fail ending, entries) => (some ending, entries)
  | (_, entries) => (none, entries)

/-- What `List` returns after the walk. -/
def conclude : WalkResult Ending × List Entry → Except Err (List Entry)
  | (.fail (.err err), _) => .error (mapError directory err)
  | (_, entries) => .ok (sortEntries entries)

def shallowList : Except Err (List Entry) :=
  match checked a f T directory with
  | some err => .error err
  | none => conclude directory (shallowWalk a f T limit directory.segments)

variable {a f T limit directory} {cancelled : Ctx → Bool} {ctx : Ctx}

theorem nameAt_segments (directory : Path) :
    (if directory.value = [] then PathName.current else directory.value) =
      nameAt directory.segments := by
  by_cases hroot : directory = .root
  · rw [hroot]
    rfl
  · have hne := (directory.normalForm hroot).ne_nil
    rw [if_neg hne, nameAt_of_ne_nil (Path.segments_ne_nil hroot), Path.segments,
      Path.isRoot_eq_false_iff.mpr hroot]
    exact (List.intercalate_splitOn slash).symm

theorem isName_of_mem_segments {directory : Path} {x : Str} (hx : x ∈ directory.segments) :
    IsName x := (Remote.isName_of_mem_segments hx).1

theorem ensures_checked : Ensures (listAnswers f cancelled) True
    (if directory.isRoot then pure none
      else (checkSymlinks a directory true).extend : Prog listSig (Option Err)) T
    fun r T' ↦ T' = T ∧ r = checked a f T directory := by
  unfold checked
  cases hroot : directory.isRoot with
  | true => exact ⟨rfl, rfl⟩
  | false =>
      refine Ensures.extend (A := answers f cancelled) ?_ fun _ _ _ _ ↦ Iff.rfl
      unfold checkSymlinks
      rw [hroot]
      split
      · exact ⟨rfl, rfl⟩
      · exact ensures_checkSymlinksFrom_eq ..

/-- The function that `List` hands to the walk, called for the directory. -/
theorem ensures_listFile_start (hctx : cancelled ctx = false) {start : Str} {entry : DirEntry}
    {options : ListOptions} {entries : List Entry} :
    Ensures (listAnswers f cancelled) True
      (listFile a ctx start options start (.file entry) entries) T
      fun r T' ↦ T' = T ∧ r = (.ok, entries) := by
  unfold listFile
  refine (ensures_ctxErr hctx).bind ?_
  rintro _ _ ⟨rfl, rfl⟩
  dsimp only
  rw [if_pos rfl]
  exact ⟨rfl, rfl⟩

theorem ensures_visit_start (hctx : cancelled ctx = false) {start : Str} {entry : DirEntry}
    {options : ListOptions} :
    Ensures (listAnswers f cancelled) True
      (rootFS.visit (listFile a ctx start options) start entry []) T
      fun r T' ↦ T' = T ∧ r =
        if !entry.directory then (.inl .ok, [])
        else
          match walkedDir f T start with
          | (children, none) => (.inr children, [])
          | (_, some err) => (.inl (.fail (.err err)), []) := by
  unfold Walkable.visit
  refine (ensures_listFile_start hctx).bind ?_
  rintro _ _ ⟨rfl, rfl⟩
  rw [show rootFS.isDir entry = entry.directory from rfl]
  cases entry.directory with
  | false => exact ⟨rfl, rfl⟩
  | true =>
      refine (ensures_readDir _).bind ?_
      rintro _ _ ⟨rfl, rfl⟩
      rcases walkedDir f _ start with ⟨children, _ | err⟩
      · exact ⟨rfl, rfl⟩
      · exact ⟨rfl, rfl⟩

theorem ensures_walk (hctx : cancelled ctx = false) {s : Location} (hs : ∀ x ∈ s, IsName x) :
    Ensures (listAnswers f cancelled) True
      (rootFS.walk (listFile a ctx (nameAt s) { limit }) (nameAt s) []) T
      fun r T' ↦ T' = T ∧ r = shallowWalk a f T limit s := by
  unfold Walkable.walk shallowWalk opening
  refine (ensures_stat _).bind ?_
  rintro _ T ⟨rfl, rfl⟩
  cases validPath (nameAt s) with
  | false => exact ⟨rfl, rfl⟩
  | true =>
      rcases described "stat" (nameAt s) _ with err | ⟨directory, link, size, modified⟩
      · exact ⟨rfl, rfl⟩
      refine (ensures_visit_start hctx).bind ?_
      rintro _ T ⟨rfl, rfl⟩
      cases directory with
      | false => exact ⟨rfl, rfl⟩
      | true =>
          have hnames : ∀ e ∈ (walkedDir f T (nameAt s)).1, IsName e.name :=
            fun e he ↦ isName_of_mem_walkedDir he
          dsimp only [infoToDirEntry, Bool.not_true]
          generalize walkedDir f T (nameAt s) = dir at hnames ⊢
          rcases dir with ⟨children, _ | err⟩
          · exact ensures_walkShallow hctx hs hnames
          · exact ⟨rfl, rfl⟩

theorem ensures_walkDir (hctx : cancelled ctx = false) {s : Location} (hs : ∀ x ∈ s, IsName x) :
    Ensures (listAnswers f cancelled) True
      (rootFS.walkDir (listFile a ctx (nameAt s) { limit }) (nameAt s) []) T
      fun r T' ↦ T' = T ∧ r = ending (shallowWalk a f T limit s) := by
  unfold Walkable.walkDir
  refine (ensures_walk hctx hs).bind ?_
  rintro _ T ⟨rfl, rfl⟩
  rcases shallowWalk a f T limit s with ⟨_ | _ | _ | err, entries⟩
  all_goals exact ⟨rfl, rfl⟩

/-- `List` without recursion returns what `shallowList` says. -/
theorem ensures_list (hctx : cancelled ctx = false) (hlimit : 0 ≤ limit) :
    Ensures (listAnswers f cancelled) True (list a ctx directory { limit }) T
      fun r T' ↦ T' = T ∧ r = shallowList a f T limit directory := by
  unfold list shallowList
  refine (ensures_ctxErr hctx).bind ?_
  rintro _ _ ⟨rfl, rfl⟩
  dsimp only
  rw [if_neg (not_lt.mpr hlimit), nameAt_segments]
  refine ensures_checked.bind ?_
  rintro _ T ⟨rfl, rfl⟩
  rcases checked a f T directory with _ | err
  · refine (ensures_walkDir hctx fun x hx ↦ isName_of_mem_segments hx).bind ?_
    rintro _ T ⟨rfl, rfl⟩
    rcases shallowWalk a f T limit directory.segments with ⟨_ | _ | _ | ⟨_ | err⟩, entries⟩
    all_goals exact ⟨rfl, rfl⟩
  · exact ⟨rfl, rfl⟩

end Listing

/-! ## What depends on the directory only -/

section Obstacles

variable (a : Adapter) (f : Following) (T : LinkTree) (limit : Int)

/-- The children of a directory, collected without a look into them. -/
def direct (s : Location) : List DirEntry → List Entry → WalkResult Ending × List Entry
  | [], entries => (.ok, entries)
  | entry :: rest, entries =>
    match listAt a f T limit (s ++ [entry.name]) entry entries with
    | (.ok, entries) => direct s rest entries
    | (result, entries) => (result, entries)

/-- The error of the first child directory that is entered and cannot be read. -/
def obstacle (s : Location) : List DirEntry → List Entry → Option Err
  | [], _ => none
  | entry :: rest, entries =>
    match listAt a f T limit (s ++ [entry.name]) entry entries with
    | (.ok, entries) =>
      if entry.directory then
        match (walkedDir f T (nameAt (s ++ [entry.name]))).2 with
        | some err => some err
        | none => obstacle s rest entries
      else obstacle s rest entries
    | _ => none

def reached (s : Location) : List DirEntry :=
  match opening f T s with
  | .inl _ => []
  | .inr children => children

/-- The error of the first child directory that a listing enters and cannot read. -/
def obstacleOf (directory : Path) : Option Err :=
  match checked a f T directory with
  | some _ => none
  | none => obstacle a f T limit directory.segments (reached f T directory.segments) []

/-- What a listing that is not recursive returns if there is no obstacle. -/
def directList (directory : Path) : Except Err (List Entry) :=
  match checked a f T directory with
  | some err => .error err
  | none =>
    match opening f T directory.segments with
    | .inl result => conclude directory (result, [])
    | .inr children => conclude directory (direct a f T limit directory.segments children [])

variable {a f T limit} {s : Location}

theorem conclude_shallow (directory : Path) (children : List DirEntry) (entries : List Entry) :
    conclude directory (shallow a f T limit s children entries) =
      match obstacle a f T limit s children entries with
      | some err => .error (mapError directory err)
      | none => conclude directory (direct a f T limit s children entries) := by
  induction children generalizing entries with
  | nil => rfl
  | cons entry rest ih =>
      unfold shallow obstacle direct
      rw [visitAt_child]
      rcases listAt_cases (a := a) f T limit (s ++ [entry.name]) entry entries with
        ⟨entries', hlist⟩ | ⟨ending, entries', hlist⟩
      · rw [hlist]
        cases entry.directory with
        | false => exact ih entries'
        | true =>
            dsimp only [Bool.not_true]
            rcases walkedDir f T (nameAt (s ++ [entry.name])) with ⟨children, _ | err⟩
            · exact ih entries'
            · rfl
      · rw [hlist]

theorem shallowList_eq (directory : Path) :
    shallowList a f T limit directory =
      match obstacleOf a f T limit directory with
      | some err => .error (mapError directory err)
      | none => directList a f T limit directory := by
  unfold shallowList obstacleOf directList shallowWalk reached
  rcases checked a f T directory with _ | err
  · rcases opening f T directory.segments with result | children
    · rfl
    · exact conclude_shallow directory children []
  · rfl

/-- Two roots agree on a directory: on what `Lstat` says of the way to it, on what it is
and on whether it can be read, and on the names, kinds, sizes and times of its
children. -/
structure Agree (f : Following) (T T' : LinkTree) (directory : Path) : Prop where
  way : ∀ name ∈ leadingNames (directory.value.splitOn slash),
    described "lstat" name (T.lstat f name) = described "lstat" name (T'.lstat f name)
  itself : ∀ name, name = nameAt directory.segments →
    described "stat" name (T.stat f name) = described "stat" name (T'.stat f name)
  contents : ∀ name, name = nameAt directory.segments → readDirOf f T name = readDirOf f T' name
  children : ∀ entry ∈ (readDirOf f T (nameAt directory.segments)).1,
    ∀ name, name = nameAt (directory.segments ++ [entry.name]) →
      described "lstat" name (T.lstat f name) = described "lstat" name (T'.lstat f name)

variable {T' : LinkTree} {directory : Path}

theorem Agree.checked_eq (h : Agree f T T' directory) :
    checked a f T directory = checked a f T' directory := by
  unfold checked
  rw [verdict_congr h.way]

theorem Agree.opening_eq (h : Agree f T T' directory) :
    opening f T directory.segments = opening f T' directory.segments := by
  unfold opening walkedDir
  rw [h.itself _ rfl, h.contents _ rfl]

theorem readDirOf_of_opening (h : opening f T s = .inr children) :
    validPath (nameAt s) = true ∧ readDirOf f T (nameAt s) = (children, none) := by
  unfold opening walkedDir at h
  cases hvalid : validPath (nameAt s) with
  | false =>
      rw [hvalid] at h
      contradiction
  | true =>
      simp only [hvalid, Bool.not_true, Bool.false_eq_true, if_false] at h
      split at h
      · contradiction
      split at h
      · contradiction
      split at h
      · contradiction
      · rename_i hread
        cases h
        exact ⟨rfl, hread⟩

theorem direct_congr (h : ∀ entry ∈ children,
      ∀ name, name = nameAt (s ++ [entry.name]) →
        described "lstat" name (T.lstat f name) = described "lstat" name (T'.lstat f name))
    (entries : List Entry) :
    direct a f T limit s children entries = direct a f T' limit s children entries := by
  induction children generalizing entries with
  | nil => rfl
  | cons entry rest ih =>
      have hlist : listAt a f T limit (s ++ [entry.name]) entry entries =
          listAt a f T' limit (s ++ [entry.name]) entry entries := by
        unfold listAt
        rw [h entry List.mem_cons_self _ rfl]
      unfold direct
      rw [hlist]
      rcases listAt_cases (a := a) f T' limit (s ++ [entry.name]) entry entries with
        ⟨entries', heq⟩ | ⟨ending, entries', heq⟩
      · rw [heq]
        exact ih (fun e he ↦ h e (List.mem_cons_of_mem _ he)) entries'
      · rw [heq]

theorem Agree.directList_eq (h : Agree f T T' directory) :
    directList a f T limit directory = directList a f T' limit directory := by
  unfold directList
  rw [h.checked_eq, ← h.opening_eq]
  cases hopening : opening f T directory.segments with
  | inl result => rfl
  | inr children =>
      have hread := (readDirOf_of_opening hopening).2
      dsimp only
      rw [direct_congr fun entry hentry ↦ h.children entry (by rw [hread]; exact hentry)]

end Obstacles

end GoFilesystem.Local
