import GoFilesystem.Go.Fs
import GoFilesystem.Go.WalkDir
import GoFilesystem.Local.Links

/-!
# Listing a local directory

`List` of `local.go`: a walk of the file system beneath the root, with a function that
collects the entries and ends the walk when there are enough of them.  A listing that
is not recursive is the same walk, in which what is beneath the children of the
directory is passed over.
-/

namespace GoFilesystem.Local

open Go Conc Posix

/-- `fs.DirEntry`: a name and a type. -/
structure DirEntry where
  name : Str
  directory : Bool
  link : Bool
deriving DecidableEq

/-- The command that only `List` issues. -/
inductive ReadCmd where
  | readDir (name : Str)

/-- The entries that were read, and the error. -/
@[reducible] def ReadCmd.Resp : ReadCmd → Type
  | .readDir _ => List DirEntry × Option Err

/-- The signature of `List`. -/
@[reducible] def listSig : Sig := sig.extend ReadCmd ReadCmd.Resp

def performFile (c : Cmd) : Prog listSig c.Resp := Prog.perform (S := listSig) (.inl c)

/-- `ReadDir` as a program. -/
def performRead (name : Str) : Prog listSig (List DirEntry × Option Err) :=
  Prog.perform (S := listSig) (.inr (.readDir name))

/-- The error of a name that `fs.ValidPath` does not accept. -/
def invalidName (op : String) (name : Str) : Err := pathError op name (.sentinel .invalid)

/-- `fs.FileInfoToDirEntry`. -/
def infoToDirEntry (name : Str) (info : Info) : DirEntry where
  name := PathName.base name
  directory := info.directory
  link := info.link

/-- `a.root.FS()`. -/
def rootFS : Walkable listSig Err DirEntry where
  stat name := do
    if !validPath name then return .error (invalidName "stat" name)
    else
      match ← performFile (.stat name) with
      | .error err => return .error err
      | .ok info => return .ok (infoToDirEntry name info)
  readDir name := do
    if !validPath name then return ([], some (invalidName "readdir" name))
    else performRead name
  name := DirEntry.name
  isDir := DirEntry.directory

/-- How the function that `List` hands to the walk ends it: with `stop`, or with an error. -/
inductive Ending where
  | stop
  | err (err : Err)

/-- `strings.TrimPrefix`. -/
def trimPrefix (s start : Str) : Str := if start <+: s then s.drop start.length else s

variable (a : Adapter)

/-- Whether `List` goes on with these entries. -/
def goOn (limit : Int) (entries : List Entry) : WalkResult Ending × List Entry :=
  if 0 < limit ∧ limit ≤ entries.length then (.fail .stop, entries) else (.ok, entries)

/-- What `List` does with a file that it is to list. -/
def collect (limit : Int) (name : Str) (entry : DirEntry) (info : Except Err Info)
    (entries : List Entry) : WalkResult Ending × List Entry :=
  match info with
  | .error err => (.fail (.err err), entries)
  | .ok info =>
    match parsePath name with
    | .error err => (.fail (.err err.err), entries)
    | .ok path =>
      let kind := if entry.directory then .directory else .file
      goOn limit (entries ++ [{ path, kind, size := info.size, modified := info.modified }])

/-- The function that `List` hands to the walk.  `Info` of an entry looks at the file. -/
def listFile (ctx : Ctx) (start : Str) (options : ListOptions) (name : Str) :
    WalkCall DirEntry Err → List Entry → Prog listSig (WalkResult Ending × List Entry)
  | .failed _ walkErr, entries => return (.fail (.err walkErr), entries)
  | .file entry, entries => do
    match ← performFile (.ctxErr ctx) with
    | some err => return (.fail (.err err.err), entries)
    | none =>
      if name = start then return (.ok, entries)
      else
        let relative := trimPrefix (trimPrefix name start) [slash]
        if !options.recursive && slash ∈ relative then
          return (if entry.directory then .skipDir else .ok, entries)
        else if entry.link && a.symlinkPolicy = .denySymlinks then
          return (.fail (.err (.new "local: symbolic link %q is denied" [name])), entries)
        else return collect options.limit name entry (← performFile (.lstat name)) entries

def sortEntries (entries : List Entry) : List Entry :=
  entries.mergeSort fun left right ↦ left.path.value ≤ right.path.value

/-- `List`. -/
def list (ctx : Ctx) (directory : Path) (options : ListOptions) :
    Prog listSig (Except Err (List Entry)) := do
  match ← performFile (.ctxErr ctx) with
  | some err => return .error err.err
  | none =>
    if options.limit < 0 then
      return .error (.new "local: list limit must not be negative" [])
    else
      let start := if directory.value = [] then PathName.current else directory.value
      match ← (if directory.isRoot then pure none
        else (checkSymlinks a directory true).extend : Prog listSig (Option Err)) with
      | some err => return .error err
      | none =>
        match ← rootFS.walkDir (listFile a ctx start options) start [] with
        | (some (.err err), _) => return .error (mapError directory err)
        | (_, entries) => return .ok (sortEntries entries)

/-! ## Names -/

def nameAt (l : Location) : Str := if l = [] then PathName.current else [slash].intercalate l

variable {l s t : Location} {c : Str}

theorem nameAt_of_ne_nil (hl : l ≠ []) : nameAt l = [slash].intercalate l := if_neg hl

theorem nameAt_append (hs : s ≠ []) (ht : t ≠ []) :
    nameAt (s ++ t) = nameAt s ++ slash :: nameAt t := by
  rw [nameAt_of_ne_nil (by simp [hs]), nameAt_of_ne_nil hs, nameAt_of_ne_nil ht,
    intercalate_append [slash] hs ht]
  simp

theorem nameAt_singleton (c : Str) : nameAt [c] = c := by
  rw [nameAt_of_ne_nil (by simp)]
  simp

theorem spells_nameAt (hl : ∀ x ∈ l, IsName x) : Spells (nameAt l) l := by
  by_cases hnil : l = []
  · rw [hnil]
    exact ⟨nofun, [PathName.current], by simp, rfl⟩
  · rw [nameAt_of_ne_nil hnil]
    exact spells_intercalate hl hnil

theorem exists_nameAt_cons (c : Str) (l : Location) : ∃ rest, nameAt (c :: l) = c ++ rest := by
  by_cases hl : l = []
  · rw [hl, nameAt_singleton]
    exact ⟨[], (List.append_nil c).symm⟩
  · rw [← List.singleton_append, nameAt_append (by simp) hl, nameAt_singleton]
    exact ⟨_, rfl⟩

theorem exists_nameAt_eq_cons (hl : ∀ x ∈ l, IsName x) :
    ∃ b rest, nameAt l = b :: rest ∧ b ≠ slash := by
  cases l with
  | nil => exact ⟨dot, [], rfl, by decide⟩
  | cons x l =>
      have hx := hl x List.mem_cons_self
      obtain ⟨rest, hname⟩ := exists_nameAt_cons x l
      obtain ⟨b, x, rfl⟩ := List.exists_cons_of_ne_nil hx.ne_nil
      exact ⟨b, x ++ rest, hname, fun heq ↦ hx.noSlash (heq ▸ List.mem_cons_self)⟩

theorem elements_nameAt (hl : ∀ x ∈ l, IsName x) : PathName.elements (nameAt l) = l := by
  by_cases hnil : l = []
  · rw [hnil]
    rfl
  · rw [nameAt_of_ne_nil hnil]
    exact PathName.elements_intercalate fun x hx ↦
      ⟨(hl x hx).noSlash, (hl x hx).ne_nil, (hl x hx).ne_dot⟩

theorem plain_nameAt (hl : ∀ x ∈ l, IsName x) : PathName.Plain (nameAt l) := by
  by_cases hnil : l = []
  · rw [hnil]
    unfold PathName.Plain
    decide
  · rw [nameAt_of_ne_nil hnil]
    exact PathName.plain_intercalate fun x hx ↦ Remote.plain_of_isName (hl x hx)

/-- `path.Join` of the name of a directory and the name of an entry. -/
theorem join_nameAt (hl : ∀ x ∈ l, IsName x) (hc : IsName c) :
    PathName.join [nameAt l, c] = nameAt (l ++ [c]) := by
  obtain ⟨b, rest, hname, hb⟩ := exists_nameAt_eq_cons hl
  have hfilter : [nameAt l, c].filter (· ≠ []) = [nameAt l, c] := by
    rw [hname]
    simp [hc.ne_nil]
  have hjoined : [slash].intercalate [nameAt l, c] = nameAt l ++ slash :: c := by
    simp [List.intercalate]
  have helements : PathName.elements (nameAt l ++ slash :: c) = l ++ [c] := by
    rw [PathName.elements_append_slash, elements_nameAt hl,
      PathName.elements_eq_singleton hc.noSlash hc.ne_nil hc.ne_dot]
  unfold PathName.join
  rw [hfilter]
  dsimp only
  rw [hjoined, PathName.clean_of_relative, helements, nameAt_of_ne_nil (by simp)]
  · exact PathName.plain_append_slash.mpr ⟨plain_nameAt hl, Remote.plain_of_isName hc⟩
  · rw [hname]
    simpa using hb
  · rw [helements]
    simp

theorem slash_mem_nameAt (hl : ∀ x ∈ l, IsName x) (hne : l ≠ []) :
    slash ∈ nameAt l ↔ 2 ≤ l.length := by
  match l, hne with
  | [c], _ =>
      rw [nameAt_singleton]
      simpa using (hl c List.mem_cons_self).noSlash
  | c :: d :: rest, _ =>
      rw [← List.singleton_append, nameAt_append (List.cons_ne_nil c []) (List.cons_ne_nil d rest)]
      simp

theorem trimPrefix_append (s t : Str) : trimPrefix (s ++ t) s = t := by
  unfold trimPrefix
  rw [if_pos (List.prefix_append s t), List.drop_left]

theorem trimPrefix_of_ne {b c : UInt8} (h : b ≠ c) (s : Str) :
    trimPrefix (b :: s) [c] = b :: s := by
  refine if_neg fun hbegin ↦ h ?_
  exact (List.cons_prefix_cons.mp hbegin).1.symm

/-- What is left of a name beneath another has a slash if it is not directly beneath it. -/
theorem slash_mem_relative (ht : ∀ x ∈ t, IsName x) (hne : t ≠ []) :
    slash ∈ trimPrefix (trimPrefix (nameAt (s ++ t)) (nameAt s)) [slash] ↔ 2 ≤ t.length := by
  obtain ⟨b, rest, hname, hb⟩ := exists_nameAt_eq_cons ht
  rw [← slash_mem_nameAt ht hne]
  by_cases hnil : s = []
  · rw [hnil, List.nil_append, hname]
    change slash ∈ trimPrefix (trimPrefix (b :: rest) [dot]) [slash] ↔ _
    by_cases hdot : b = dot
    · -- Without its dot, a hidden name does not begin with a slash either.
      have htrim : trimPrefix (b :: rest) [dot] = rest := hdot ▸ trimPrefix_append [dot] rest
      rw [htrim]
      obtain ⟨c, t, rfl⟩ := List.exists_cons_of_ne_nil hne
      have hc := ht c List.mem_cons_self
      obtain ⟨tail, htail⟩ := exists_nameAt_cons c t
      obtain ⟨x, c, rfl⟩ := List.exists_cons_of_ne_nil hc.ne_nil
      obtain ⟨rfl, hrest⟩ := List.cons.inj (hname.symm.trans htail)
      have hne : c ≠ [] := fun hnil ↦ hc.ne_dot (by rw [hnil, hdot])
      obtain ⟨y, c, rfl⟩ := List.exists_cons_of_ne_nil hne
      have hy : y ≠ slash := fun heq ↦ hc.noSlash (by simp [heq])
      rw [hrest]
      change slash ∈ trimPrefix (y :: (c ++ tail)) [slash] ↔ slash ∈ b :: y :: (c ++ tail)
      rw [trimPrefix_of_ne hy]
      exact ⟨List.mem_cons_of_mem b, fun h ↦ (List.mem_cons.mp h).resolve_left (Ne.symm hb)⟩
    · rw [trimPrefix_of_ne hdot, trimPrefix_of_ne hb]
  · have htrim : trimPrefix (nameAt s ++ slash :: nameAt t) (nameAt s) = [slash] ++ nameAt t :=
      trimPrefix_append ..
    rw [nameAt_append hnil hne, htrim, trimPrefix_append]

/-! ## A root that does not change -/

def dirEntryOf (name : Str) (item : Item) : DirEntry where
  name := name
  directory := item.kind = .directory
  link := item.kind.isLink

/-- What `ReadDir` returns. -/
def readDirOf (f : Following) (T : LinkTree) (name : Str) : List DirEntry × Option Err :=
  match T.resolve f name with
  | .error e => ([], some (pathError "openat" name (unresolvedErr e)))
  | .ok l =>
    match T.lookup l with
    | none => ([], some (pathError "openat" name (unresolvedErr .missing)))
    | some item =>
      if item.kind ≠ .directory then
        ([], some (pathError "fdopendir" name (unresolvedErr .notDirectory)))
      else if !item.readable then ([], some (pathError "openat" name (.new "permission denied" [])))
      else ((T.children l).map fun child ↦ dirEntryOf child.1 child.2, none)

/-- How a root answers the commands of `List`. -/
def listAnswers (f : Following) (cancelled : Ctx → Bool) : Answers listSig LinkTree
  | T, .inl c, r, T' => answers f cancelled T c r T'
  | T, .inr (.readDir name), r, T' => T' = T ∧ r = readDirOf f T name

/-- What `ReadDir` of the file system that is walked returns. -/
def walkedDir (f : Following) (T : LinkTree) (name : Str) : List DirEntry × Option Err :=
  if !validPath name then ([], some (invalidName "readdir" name)) else readDirOf f T name

/-- What `List` does with the file at a location. -/
def listAt (f : Following) (T : LinkTree) (limit : Int) (l : Location) (entry : DirEntry)
    (entries : List Entry) : WalkResult Ending × List Entry :=
  if entry.link && a.symlinkPolicy = .denySymlinks then
    (.fail (.err (.new "local: symbolic link %q is denied" [nameAt l])), entries)
  else collect limit (nameAt l) entry (described "lstat" (nameAt l) (T.lstat f (nameAt l))) entries

section Walk

variable {a} {f : Following} {cancelled : Ctx → Bool} {T : LinkTree} {ctx : Ctx}
  {options : ListOptions} {entry : DirEntry} {entries : List Entry} {live : Prop}

theorem ensures_ctxErr (hctx : cancelled ctx = false) :
    Ensures (listAnswers f cancelled) live (performFile (.ctxErr ctx)) T
      fun r T' ↦ T' = T ∧ r = none :=
  Ensures.command (fun _ ↦ ⟨none, T, rfl, fun _ ↦ rfl⟩) fun _ _ h ↦ ⟨h.1, h.2 hctx⟩

theorem ensures_lstat (name : Str) :
    Ensures (listAnswers f cancelled) live (performFile (.lstat name)) T
      fun r T' ↦ T' = T ∧ r = described "lstat" name (T.lstat f name) :=
  Ensures.command (fun _ ↦ ⟨_, T, rfl, rfl⟩) fun _ _ h ↦ h

theorem ensures_stat (name : Str) :
    Ensures (listAnswers f cancelled) live (rootFS.stat name) T fun r T' ↦ T' = T ∧ r =
      if !validPath name then .error (invalidName "stat" name)
      else (described "stat" name (T.stat f name)).map (infoToDirEntry name) := by
  unfold rootFS
  dsimp only
  split
  · exact ⟨rfl, rfl⟩
  · refine Ensures.bind (Ensures.command (fun _ ↦ ⟨_, T, rfl, rfl⟩) fun _ _ h ↦ h) ?_
    rintro _ _ ⟨rfl, rfl⟩
    rcases described "stat" name _ with err | info
    · exact ⟨rfl, rfl⟩
    · exact ⟨rfl, rfl⟩

theorem ensures_readDir (name : Str) :
    Ensures (listAnswers f cancelled) live (rootFS.readDir name) T
      fun r T' ↦ T' = T ∧ r = walkedDir f T name := by
  unfold rootFS walkedDir
  dsimp only
  split
  · exact ⟨rfl, rfl⟩
  · exact Ensures.command (fun _ ↦ ⟨_, T, rfl, rfl⟩) fun _ _ h ↦ h

/-- The function that `List` hands to the walk, called for a file beneath the directory. -/
theorem ensures_listFile (hctx : cancelled ctx = false) (hs : ∀ x ∈ s, IsName x)
    (ht : ∀ x ∈ t, IsName x) (hne : t ≠ []) :
    Ensures (listAnswers f cancelled) live
      (listFile a ctx (nameAt s) options (nameAt (s ++ t)) (.file entry) entries) T
      fun r T' ↦ T' = T ∧ r =
        if !options.recursive && 2 ≤ t.length then
          (if entry.directory then .skipDir else .ok, entries)
        else listAt a f T options.limit (s ++ t) entry entries := by
  unfold listFile
  refine (ensures_ctxErr hctx).bind ?_
  rintro _ _ ⟨rfl, rfl⟩
  have hstart : nameAt (s ++ t) ≠ nameAt s := by
    intro heq
    have helements := congrArg PathName.elements heq
    rw [elements_nameAt hs, elements_nameAt fun x hx ↦ (List.mem_append.mp hx).elim (hs x) (ht x)]
      at helements
    exact hne (List.append_right_eq_self.mp helements)
  dsimp only
  rw [if_neg hstart]
  simp only [slash_mem_relative ht hne]
  split
  · exact ⟨rfl, rfl⟩
  · unfold listAt
    split
    · exact ⟨rfl, rfl⟩
    · refine (ensures_lstat _).bind ?_
      rintro _ _ ⟨rfl, rfl⟩
      exact ⟨rfl, rfl⟩

theorem listAt_cases (f : Following) (T : LinkTree) (limit : Int) (l : Location) (entry : DirEntry)
    (entries : List Entry) :
    (∃ entries', listAt a f T limit l entry entries = (.ok, entries')) ∨
      ∃ ending entries', listAt a f T limit l entry entries = (.fail ending, entries') := by
  unfold listAt collect
  split
  · exact .inr ⟨_, _, rfl⟩
  · split
    · exact .inr ⟨_, _, rfl⟩
    · split
      · exact .inr ⟨_, _, rfl⟩
      · dsimp only [goOn]
        generalize entries ++ _ = entries'
        split
        · exact .inr ⟨_, _, rfl⟩
        · exact .inl ⟨_, rfl⟩

variable (a f T options) in
/-- What the walk does with the file at a location beneath the directory `s`. -/
def visitAt (s t : Location) (entry : DirEntry) (entries : List Entry) :
    (WalkResult Ending ⊕ List DirEntry) × List Entry :=
  if !options.recursive && 2 ≤ t.length then (.inl .ok, entries)
  else
    match listAt a f T options.limit (s ++ t) entry entries with
    | (.ok, entries) =>
      if !entry.directory then (.inl .ok, entries)
      else
        match walkedDir f T (nameAt (s ++ t)) with
        | (children, none) => (.inr children, entries)
        | (_, some err) => (.inl (.fail (.err err)), entries)
    | (result, entries) => (.inl result, entries)

variable (a f T options) in
/-- The walk goes on, with the entries of a directory if it is one, or it ends. -/
theorem visitAt_cases (s t : Location) (entry : DirEntry) (entries : List Entry) :
    ∃ entries', visitAt a f T options s t entry entries = (.inl .ok, entries') ∨
      visitAt a f T options s t entry entries =
        (.inr (walkedDir f T (nameAt (s ++ t))).1, entries') ∨
      ∃ ending, visitAt a f T options s t entry entries = (.inl (.fail ending), entries') := by
  unfold visitAt
  split
  · exact ⟨_, .inl rfl⟩
  rcases listAt_cases (a := a) f T options.limit (s ++ t) entry entries with ⟨entries', hlist⟩ |
    ⟨ending, entries', hlist⟩
  · rw [hlist]
    refine ⟨entries', ?_⟩
    cases entry.directory with
    | false => exact .inl rfl
    | true =>
        dsimp only [Bool.not_true]
        rcases walkedDir f T (nameAt (s ++ t)) with ⟨children, _ | err⟩
        · exact .inr (.inl rfl)
        · exact .inr (.inr ⟨_, rfl⟩)
  · rw [hlist]
    exact ⟨entries', .inr (.inr ⟨ending, rfl⟩)⟩

theorem ensures_visit (hctx : cancelled ctx = false) (hs : ∀ x ∈ s, IsName x)
    (ht : ∀ x ∈ t, IsName x) (hne : t ≠ []) :
    Ensures (listAnswers f cancelled) live
      (rootFS.visit (listFile a ctx (nameAt s) options) (nameAt (s ++ t)) entry entries) T
      fun r T' ↦ T' = T ∧ r = visitAt a f T options s t entry entries := by
  unfold Walkable.visit visitAt
  refine (ensures_listFile hctx hs ht hne).bind ?_
  rintro _ _ ⟨rfl, rfl⟩
  have hisDir : rootFS.isDir entry = entry.directory := rfl
  rw [hisDir]
  by_cases hdeep : (!options.recursive && 2 ≤ t.length) = true
  · rw [if_pos hdeep, if_pos hdeep]
    cases entry.directory with
    | false => exact ⟨rfl, rfl⟩
    | true => exact ⟨rfl, rfl⟩
  rw [if_neg hdeep, if_neg hdeep]
  rcases listAt_cases (a := a) f _ options.limit (s ++ t) entry entries with ⟨entries', hlist⟩ |
    ⟨ending, entries', hlist⟩
  · rw [hlist]
    cases entry.directory with
    | false => exact ⟨rfl, rfl⟩
    | true =>
        refine (ensures_readDir _).bind ?_
        rintro _ _ ⟨rfl, rfl⟩
        dsimp only
        rcases walkedDir f _ (nameAt (s ++ t)) with ⟨children, _ | err⟩
        · exact ⟨rfl, rfl⟩
        · exact ⟨rfl, rfl⟩
  · rw [hlist]
    exact ⟨rfl, rfl⟩

theorem isName_of_mem_walkedDir {name : Str} (h : entry ∈ (walkedDir f T name).1) :
    IsName entry.name := by
  unfold walkedDir readDirOf at h
  split at h
  · exact nomatch h
  split at h
  · exact nomatch h
  split at h
  · exact nomatch h
  split_ifs at h
  · exact nomatch h
  · exact nomatch h
  · obtain ⟨⟨name, item⟩, hchild, rfl⟩ := List.mem_map.mp h
    exact LinkTree.isName_of_lookup (ne_of_eq_of_ne (T.mem_children.mp hchild) nofun)

end Walk

end GoFilesystem.Local
