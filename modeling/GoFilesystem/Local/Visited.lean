import GoFilesystem.Entries
import GoFilesystem.Local.Children

/-!
# The files that a local listing visits

`Info` of an entry looks at the file.  So the files that the walk of `List` visits are
those beneath the directory among all that `Lstat` has been asked for, and a history of
these requests is kept beside the root.  `List` makes one entry of each visited file; the
path of the entry leads back to it exactly if no name on the way has a backslash, which
`ParsePath` rewrites.
-/

namespace GoFilesystem.Local

open Go Conc Posix

def looksAt : listSig.Cmd → List Location
  | .inl (.lstat name) => [PathName.elements name]
  | _ => []

/-- The files beneath a directory among those that were looked at. -/
def visited (s : Location) (looked : List Location) : List Location :=
  looked.filter fun l ↦ s.length < l.length

/-- The entry has the kind and the size of the object that is found at a location. -/
def Shows (f : Following) (T : LinkTree) (l : Location) (entry : Entry) : Prop :=
  ∃ item, T.lstat f (nameAt l) = .ok item ∧ entry.kind = kindOf item ∧ entry.size = item.size

/-- A name on the way to the directory `s`, or of something beneath the root. -/
def Known (T : LinkTree) (s : Location) (x : Str) : Prop :=
  x ∈ s ∨ ∃ l, T.lookup (l ++ [x]) ≠ none

/-- An entry of a directory describes the object that is found at a location. -/
def Describes (f : Following) (T : LinkTree) (l : Location) (entry : DirEntry) : Prop :=
  ∃ item, T.lstat f (nameAt l) = .ok item ∧ entry = dirEntryOf entry.name item

/-- The entry was made of the file at a location. -/
structure Made (f : Following) (T : LinkTree) (s : Location) (entry : Entry) (l : Location) :
    Prop where
  ne_nil : l ≠ []
  known : ∀ x ∈ l, Known T s x
  parses : parsePath (nameAt l) = .ok entry.path
  shows : Shows f T l entry

/-- One entry has been made of each file that was visited. -/
structure Visiting (f : Following) (T : LinkTree) (s : Location) (entries : List Entry)
    (w : LinkTree × List Location) : Prop where
  tree_eq : w.1 = T
  made : List.Forall₂ (Made f T s) entries (visited s w.2)

/-- What the walk leaves unless it ends with an error. -/
def Leaves (f : Following) (T : LinkTree) (s : Location) (w : LinkTree × List Location) :
    WalkResult Ending → List Entry → Prop
  | .fail (.err _), _ => True
  | _, entries => Visiting f T s entries w

variable {a : Adapter} {f : Following} {cancelled : Ctx → Bool} {T : LinkTree} {ctx : Ctx}
  {options : ListOptions} {s t : Location} {entry : DirEntry} {entries : List Entry}
  {w : LinkTree × List Location}

variable (f cancelled) in
/-- How a root answers the commands of `List`, with the history of what was looked at. -/
abbrev lookedAt : Answers listSig (LinkTree × List Location) :=
  (listAnswers f cancelled).noting looksAt

theorem Known.isName {x : Str} (hs : ∀ x ∈ s, IsName x) (h : Known T s x) : IsName x := by
  rcases h with hx | ⟨l, hl⟩
  · exact hs x hx
  · exact LinkTree.isName_of_lookup hl

theorem visited_append (hl : s.length < t.length) (looked : List Location) :
    visited s (looked ++ [t]) = visited s looked ++ [t] := by
  unfold visited
  rw [List.filter_append, List.filter_singleton, decide_eq_true hl]
  rfl

/-! ## The walk -/

section Walk

theorem ensures_ctxErr_looked (ctx : Ctx) :
    Ensures (lookedAt f cancelled) False (performFile (.ctxErr ctx)) w fun _ w' ↦ w' = w :=
  Ensures.command nofun fun _ _ h ↦ Prod.ext h.1.1 (h.2.trans (List.append_nil _))

theorem ensures_lstat_looked (name : Str) :
    Ensures (lookedAt f cancelled) False (performFile (.lstat name)) w fun r w' ↦
      w' = (w.1, w.2 ++ [PathName.elements name]) ∧ r = described "lstat" name (w.1.lstat f name) :=
  Ensures.command nofun fun _ _ h ↦ ⟨Prod.ext h.1.1 h.2, h.1.2⟩

theorem ensures_stat_looked (name : Str) :
    Ensures (lookedAt f cancelled) False (rootFS.stat name) w fun _ w' ↦ w' = w := by
  unfold rootFS
  dsimp only
  split
  · exact Ensures.ret rfl
  · refine Ensures.bind (K := fun _ w' ↦ w' = w)
      (Ensures.command nofun fun _ _ h ↦ Prod.ext h.1.1 (h.2.trans (List.append_nil _))) ?_
    rintro (err | info) w rfl
    · exact Ensures.ret rfl
    · exact Ensures.ret rfl

theorem ensures_readDir_looked (name : Str) :
    Ensures (lookedAt f cancelled) False (rootFS.readDir name) w fun r w' ↦
      w' = w ∧ (r.2 = none → r = readDirOf f w.1 name) := by
  unfold rootFS
  dsimp only
  split
  · exact Ensures.ret ⟨rfl, nofun⟩
  · exact Ensures.command nofun
      fun _ _ h ↦ ⟨Prod.ext h.1.1 (h.2.trans (List.append_nil _)), fun _ ↦ h.1.2⟩

theorem leaves_goOn {limit : Int} (h : Visiting f T s entries w) :
    Leaves f T s w (goOn limit entries).1 (goOn limit entries).2 := by
  unfold goOn
  split
  · exact h
  · exact h

/-- What `List` does with a file that it looked at. -/
theorem leaves_collect {item : Item} {limit : Int} (ht : ∀ x ∈ s ++ t, Known T s x) (hne : t ≠ [])
    (hitem : T.lstat f (nameAt (s ++ t)) = .ok item) (hentry : entry = dirEntryOf entry.name item)
    (h : Visiting f T s entries w) :
    Leaves f T s (T, w.2 ++ [s ++ t])
      (collect limit (nameAt (s ++ t)) entry (.ok (infoOf item)) entries).1
      (collect limit (nameAt (s ++ t)) entry (.ok (infoOf item)) entries).2 := by
  unfold collect
  cases hparse : parsePath (nameAt (s ++ t)) with
  | error err => exact trivial
  | ok path =>
      have hlength : s.length < (s ++ t).length := by
        have := List.length_pos_of_ne_nil hne
        rw [List.length_append]
        omega
      have hvisiting (made : Entry) (hmade : Made f T s made (s ++ t)) :
          Visiting f T s (entries ++ [made]) (T, w.2 ++ [s ++ t]) := by
        refine ⟨rfl, ?_⟩
        rw [visited_append hlength]
        exact List.rel_append h.made (List.Forall₂.cons hmade .nil)
      have hkind : (if entry.directory then EntryKind.directory else .file) = kindOf item := by
        rw [hentry, kindOf]
        simp only [dirEntryOf, decide_eq_true_eq]
      refine leaves_goOn (hvisiting _ ?_)
      exact ⟨by simp [hne], ht, hparse, item, hitem, hkind, rfl⟩

theorem ensures_listFile_looked (hs : ∀ x ∈ s, IsName x) (ht : ∀ x ∈ s ++ t, Known T s x)
    (hentry : t ≠ [] → Describes f T (s ++ t) entry) (h : Visiting f T s entries w) :
    Ensures (lookedAt f cancelled) False
      (listFile a ctx (nameAt s) options (nameAt (s ++ t)) (.file entry) entries) w
      fun r w' ↦ Leaves f T s w' r.1 r.2 := by
  unfold listFile
  refine (ensures_ctxErr_looked ctx).check (fun _ _ _ ↦ Ensures.ret trivial) ?_
  rintro w rfl
  dsimp only
  split
  · exact Ensures.ret h
  rename_i hstart
  split
  · cases entry.directory with
    | false => exact Ensures.ret h
    | true => exact Ensures.ret h
  split
  · exact Ensures.ret trivial
  have hne : t ≠ [] := fun hnil ↦ hstart (by rw [hnil, List.append_nil])
  obtain ⟨item, hitem, hentry⟩ := hentry hne
  refine (ensures_lstat_looked _).bind ?_
  rintro _ _ ⟨rfl, rfl⟩
  rw [elements_nameAt fun x hx ↦ (ht x hx).isName hs, h.tree_eq, hitem]
  exact Ensures.ret (leaves_collect ht hne hitem hentry h)

/-- What is left of a directory that is being walked. -/
structure Frame (f : Following) (T : LinkTree) (s : Location) (frame : Str × List DirEntry)
    (t : Location) : Prop where
  name_eq : frame.1 = nameAt (s ++ t)
  known : ∀ x ∈ s ++ t, Known T s x
  children : ∀ entry ∈ frame.2, Known T s entry.name ∧ Describes f T (s ++ t ++ [entry.name]) entry

theorem frame_readDirOf {children : List DirEntry} (hs : ∀ x ∈ s, IsName x)
    (ht : ∀ x ∈ s ++ t, Known T s x) (h : readDirOf f T (nameAt (s ++ t)) = (children, none)) :
    Frame f T s (nameAt (s ++ t), children) t where
  name_eq := rfl
  known := ht
  children entry hentry := by
    obtain ⟨l, hreads, rfl⟩ := readDirOf_eq (fun x hx ↦ (ht x hx).isName hs) h
    obtain ⟨item, hitem, heq⟩ := fromDirectory_dirEntries T l entry hentry
    exact ⟨.inr ⟨l, ne_of_eq_of_ne hitem nofun⟩, item, hreads.lstat hitem, heq⟩

theorem ensures_visit_looked (hs : ∀ x ∈ s, IsName x) (ht : ∀ x ∈ s ++ t, Known T s x)
    (hentry : t ≠ [] → Describes f T (s ++ t) entry) (h : Visiting f T s entries w) :
    Ensures (lookedAt f cancelled) False
      (rootFS.visit (listFile a ctx (nameAt s) options) (nameAt (s ++ t)) entry entries) w
      fun r w' ↦ match r with
        | (.inl result, entries) => Leaves f T s w' result entries
        | (.inr children, entries) => Visiting f T s entries w' ∧
          Frame f T s (nameAt (s ++ t), children) t := by
  unfold Walkable.visit
  refine (ensures_listFile_looked hs ht hentry h).bind ?_
  rintro ⟨result, entries⟩ w hw
  cases result with
  | skipDir =>
      dsimp only
      split
      · exact Ensures.ret hw
      · exact Ensures.ret hw
  | skipAll => exact Ensures.ret hw
  | fail err => exact Ensures.ret hw
  | ok =>
      have hvisiting : Visiting f T s entries w := hw
      dsimp only
      split
      · exact Ensures.ret hvisiting
      refine (ensures_readDir_looked _).bind ?_
      rintro ⟨children, _ | err⟩ w ⟨rfl, hread⟩
      · refine Ensures.ret ⟨hvisiting, frame_readDirOf hs ht ?_⟩
        rw [← hvisiting.tree_eq, ← hread rfl]
      · exact Ensures.ret trivial

theorem ensures_walkNext_looked {frames : List (Str × List DirEntry)} (hs : ∀ x ∈ s, IsName x)
    (hframes : ∀ frame ∈ frames, ∃ t, Frame f T s frame t) (h : Visiting f T s entries w) :
    Ensures (lookedAt f cancelled) False
      (rootFS.walkNext (listFile a ctx (nameAt s) options) (frames, entries)) w
      (Sum.elim (fun i' w' ↦ ((∀ frame ∈ i'.1, ∃ t, Frame f T s frame t) ∧
        Visiting f T s i'.2 w') ∧ (False → 0 < 0)) fun r w' ↦ Leaves f T s w' r.1 r.2) := by
  match frames with
  | [] => exact Ensures.ret h
  | (name, []) :: frames =>
      exact Ensures.ret ⟨⟨fun frame hframe ↦
        hframes frame (List.mem_cons_of_mem _ hframe), h⟩, nofun⟩
  | (name, entry :: rest) :: frames =>
      obtain ⟨t, ⟨rfl, hknown, hchildren⟩⟩ := hframes _ List.mem_cons_self
      obtain ⟨hentry, hdescribes⟩ := hchildren entry List.mem_cons_self
      have hrest : Frame f T s (nameAt (s ++ t), rest) t :=
        ⟨rfl, hknown, fun e he ↦ hchildren e (List.mem_cons_of_mem _ he)⟩
      have hframes' : ∀ frame ∈ frames, ∃ t, Frame f T s frame t :=
        fun frame hframe ↦ hframes frame (List.mem_cons_of_mem _ hframe)
      have hcons : ∀ frame ∈ (nameAt (s ++ t), rest) :: frames, ∃ t, Frame f T s frame t :=
        List.forall_mem_cons.mpr ⟨⟨t, hrest⟩, hframes'⟩
      have hname : rootFS.childName (nameAt (s ++ t)) entry =
          nameAt (s ++ (t ++ [entry.name])) := by
        rw [← List.append_assoc]
        exact join_nameAt (fun x hx ↦ (hknown x hx).isName hs) (hentry.isName hs)
      have ht : ∀ x ∈ s ++ (t ++ [entry.name]), Known T s x := by
        rw [← List.append_assoc]
        intro x hx
        rcases List.mem_append.mp hx with hx | hx
        · exact hknown x hx
        · exact List.mem_singleton.mp hx ▸ hentry
      unfold Walkable.walkNext
      dsimp only
      rw [hname]
      refine (ensures_visit_looked hs ht (fun _ ↦ List.append_assoc s t _ ▸ hdescribes) h).bind ?_
      rintro ⟨result | children, entries⟩ w hw
      · cases result with
        | ok => exact Ensures.ret ⟨⟨hcons, hw⟩, nofun⟩
        | skipDir => exact Ensures.ret ⟨⟨hframes', hw⟩, nofun⟩
        | skipAll => exact Ensures.ret hw
        | fail err => exact Ensures.ret hw
      · exact Ensures.ret ⟨⟨List.forall_mem_cons.mpr ⟨⟨_, hw.2⟩, hcons⟩, hw.1⟩, nofun⟩

theorem ensures_walk_looked (hs : ∀ x ∈ s, IsName x) (h : Visiting f T s [] w) :
    Ensures (lookedAt f cancelled) False
      (rootFS.walk (listFile a ctx (nameAt s) options) (nameAt s) []) w
      fun r w' ↦ Leaves f T s w' r.1 r.2 := by
  have hknown : ∀ x ∈ s ++ [], Known T s x := fun x hx ↦ .inl (List.append_nil s ▸ hx)
  have hvisit (info : DirEntry) : Ensures (lookedAt f cancelled) False
      (rootFS.visit (listFile a ctx (nameAt s) options) (nameAt (s ++ [])) info []) w _ :=
    ensures_visit_looked hs hknown (absurd rfl) h
  rw [List.append_nil] at hvisit
  unfold Walkable.walk
  refine (ensures_stat_looked _).bind ?_
  rintro (err | info) w rfl
  · exact Ensures.ret trivial
  dsimp only
  refine (hvisit info).bind ?_
  rintro ⟨result | children, entries⟩ w hw
  · exact Ensures.ret hw
  · refine Ensures.loop (fun i w' ↦ (∀ frame ∈ i.1, ∃ t, Frame f T s frame t) ∧
      Visiting f T s i.2 w') (fun _ _ ↦ 0) ⟨?_, hw.1⟩ fun i w hi ↦ ?_
    · exact List.forall_mem_singleton.mpr ⟨[], hw.2⟩
    · exact ensures_walkNext_looked hs hi.1 hi.2

end Walk

/-! ## The listing -/

section Listing

variable {directory : Path}

theorem length_elements_le {name : Str}
    (h : name ∈ leadingNames (directory.value.splitOn slash)) (hroot : directory.isRoot = false) :
    (PathName.elements name).length ≤ directory.segments.length := by
  obtain ⟨index, -, rfl⟩ := List.mem_map.mp h
  have hsegments : directory.value.splitOn slash = directory.segments := by
    unfold Path.segments
    rw [hroot]
    rfl
  rw [hsegments, PathName.elements_intercalate]
  · exact List.length_take_le' ..
  · intro x hx
    have hname := isName_of_mem_segments (List.mem_of_mem_take hx)
    exact ⟨hname.noSlash, hname.ne_nil, hname.ne_dot⟩

theorem ensures_checkSymlinksFrom_looked (path : Path) {names : List Str}
    (hnames : ∀ name ∈ names, (PathName.elements name).length ≤ s.length)
    (h : w.1 = T ∧ visited s w.2 = []) :
    Ensures ((answers f cancelled).noting fun c ↦ looksAt (.inl c)) False
      (checkSymlinksFrom path names) w fun _ w' ↦ w'.1 = T ∧ visited s w'.2 = [] := by
  induction names generalizing w with
  | nil => exact Ensures.ret h
  | cons name names ih =>
      have hlook : Ensures ((answers f cancelled).noting fun c ↦ looksAt (.inl c)) False
          (perform (.lstat name)) w fun _ w' ↦ w'.1 = T ∧ visited s w'.2 = [] := by
        refine Ensures.command nofun fun _ w' ha ↦ ⟨ha.1.1.trans h.1, ?_⟩
        have hlength := hnames name List.mem_cons_self
        unfold visited at h ⊢
        rw [ha.2, List.filter_append, h.2]
        simpa [looksAt] using hlength
      refine hlook.bind ?_
      rintro (err | info) w' hw'
      · exact Ensures.ret hw'
      dsimp only
      split
      · exact Ensures.ret hw'
      · exact ih (fun x hx ↦ hnames x (List.mem_cons_of_mem _ hx)) hw'

theorem ensures_list_looked :
    Ensures (lookedAt f cancelled) False (list a ctx directory options) (T, [])
      fun r w' ↦ ∀ entries, r = .ok entries → ∃ made, entries = sortEntries made ∧
        List.Forall₂ (Made f T directory.segments) made (visited directory.segments w'.2) := by
  unfold list
  refine (ensures_ctxErr_looked ctx).check (fun _ _ _ ↦ Ensures.ret nofun) ?_
  rintro w rfl
  dsimp only
  split
  · exact Ensures.ret nofun
  rw [nameAt_segments]
  have hcheck : Ensures (lookedAt f cancelled) False
      (if directory.isRoot then pure none
        else (checkSymlinks a directory true).extend : Prog listSig (Option Err)) (T, [])
      fun _ w' ↦ w'.1 = T ∧ visited directory.segments w'.2 = [] := by
    cases hroot : directory.isRoot with
    | true => exact Ensures.ret ⟨rfl, rfl⟩
    | false =>
        refine Ensures.extend (A := (answers f cancelled).noting fun c ↦ looksAt (.inl c)) ?_
          fun _ _ _ _ ↦ Iff.rfl
        unfold checkSymlinks
        split
        · exact Ensures.ret ⟨rfl, rfl⟩
        · exact ensures_checkSymlinksFrom_looked _
            (fun name hname ↦ length_elements_le hname hroot) ⟨rfl, rfl⟩
  refine hcheck.check (fun _ _ _ ↦ Ensures.ret nofun) ?_
  rintro w ⟨hw, hvisited⟩
  have hwalk : Ensures (lookedAt f cancelled) False (rootFS.walk
      (listFile a ctx (nameAt directory.segments) options) (nameAt directory.segments) []) w _ :=
    ensures_walk_looked (fun x hx ↦ isName_of_mem_segments hx)
      (⟨hw, by rw [hvisited]; exact .nil⟩ : Visiting f T directory.segments [] w)
  unfold Walkable.walkDir
  refine Ensures.bind (K := fun r w' ↦ Leaves f T directory.segments w'
    (r.1.elim .ok .fail) r.2) (hwalk.bind ?_) ?_
  · rintro ⟨_ | _ | _ | err, entries⟩ w hw
    all_goals exact Ensures.ret hw
  · rintro ⟨_ | _ | err, entries⟩ w hw
    · refine Ensures.ret fun _ hok ↦ ⟨entries, (Except.ok.inj hok).symm, hw.made⟩
    · refine Ensures.ret fun _ hok ↦ ⟨entries, (Except.ok.inj hok).symm, hw.made⟩
    · exact Ensures.ret nofun

/-- The entry leads back to the file if no name on the way to it has a backslash. -/
theorem Made.identifies {entry : Entry} {l : Location} (h : Made f T directory.segments entry l)
    (hl : ∀ name ∈ l, backslash ∉ name) : entry.Identifies Path.segments (Shows f T) l where
  locate_eq := by
    have hnames : ∀ x ∈ l, IsName x := fun x hx ↦ (h.known x hx).isName fun _ ↦
      isName_of_mem_segments
    rw [← Remote.elements_value,
      value_of_parsePath_nameAt (fun x hx ↦ ⟨hnames x hx, hl x hx⟩) h.ne_nil h.parses,
      elements_nameAt hnames]
  shows := h.shows

/-- The entries of a listing identify the visited files if and only if no name on the way
to one of them has a backslash. -/
theorem identifyVisited_iff_of_made {made : List Entry} {files : List Location}
    (h : List.Forall₂ (Made f T directory.segments) made files) :
    IdentifyVisited Path.segments (Shows f T) (sortEntries made) files ↔
      ∀ l ∈ files, ∀ name ∈ l, backslash ∉ name := by
  refine identifyVisited_iff (fun path name hname ↦ (Remote.isName_of_mem_segments hname).2)
    (List.mergeSort_perm ..) ?_
  exact h.imp fun _ _ hmade ↦ hmade.identifies

end Listing

end GoFilesystem.Local
