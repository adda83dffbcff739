import GoFilesystem.Listings
import GoFilesystem.Local.Visited

/-!
# Which files the entries of a listing are

An entry of a listing should lead back to the file that the walk visited.  `ParsePath`
and `Join` make the path of an entry from the name of the file, and rewrite backslashes
to slashes on the way, so that a name with a backslash gives the path of another file.
This is the only way in which entries and files come apart, in each of the three
adapters that walk a directory.
-/

namespace GoFilesystem

open Go Conc Posix

/-- The entries identify the visited files, and different files have different paths. -/
structure TellApart {κ : Type} (locate : Path → κ) (Shows : κ → Entry → Prop)
    (entries : List Entry) (files : List κ) : Prop where
  identify : IdentifyVisited locate Shows entries files
  distinct : files.Nodup → (entries.map Entry.path).Nodup

theorem tellApart_iff {κ : Type} {locate : Path → κ} {Shows : κ → Entry → Prop}
    {entries : List Entry} {files : List κ} :
    TellApart locate Shows entries files ↔ IdentifyVisited locate Shows entries files :=
  ⟨TellApart.identify, fun h ↦ ⟨h, h.nodup⟩⟩

/-- No name on the way to one of the files has a backslash. -/
def NoBackslash (files : List Location) : Prop :=
  ∀ l ∈ files, ∀ name ∈ l, backslash ∉ name

/-- Whenever `List` of the local adapter succeeds, the entries and the visited files have
a property. -/
def Local.ListShows (a : Local.Adapter) (f : Following) (T : LinkTree) (directory : Path)
    (options : ListOptions) (Q : List Entry → List Location → Prop) : Prop :=
  ∀ cancelled ctx entries w,
    Eval (Local.lookedAt f cancelled) (Local.list a ctx directory options) (T, []) (.ok entries) w →
      Q entries (Local.visited directory.segments w.2)

/-- Whenever `List` of the FTP adapter succeeds, the entries and the visited files have a
property. -/
def Ftp.ListShows (a : Ftp.Adapter) (tree : FileTree) (directory : Path) (options : ListOptions)
    (Q : List Entry → List Location → Prop) : Prop :=
  ∀ random t ctx s entries w,
    Eval (Ftp.answers false random t) (Ftp.list a ctx directory options) (s, { tree })
      (.ok entries) w →
      Q entries ((Remote.visited w.2.listings).take entries.length)

/-- Whenever `List` of the SFTP adapter succeeds, the entries and the visited files have a
property. -/
def Sftp.ListShows (a : Sftp.Adapter) (tree : FileTree) (directory : Path) (options : ListOptions)
    (Q : List Entry → List Location → Prop) : Prop :=
  ∀ random t ctx s entries w,
    Eval (Sftp.answers false random t) (Sftp.list a ctx directory options) (s, { tree })
      (.ok entries) w →
      Q entries ((Remote.visited w.2.listings).take entries.length)

section

variable {directory : Path} {options : ListOptions}

theorem Local.listShows {a : Local.Adapter} {f : Following} {T : LinkTree} :
    Local.ListShows a f T directory options fun entries files ↦
      (TellApart Path.segments (Local.Shows f T) entries files ↔ NoBackslash files) ∧
      ((∀ l name, T.lookup (l ++ [name]) ≠ none → backslash ∉ name) → NoBackslash files) := by
  intro cancelled ctx entries w heval
  obtain ⟨made, rfl, hmade⟩ := heval.ensures Local.ensures_list_looked entries rfl
  refine ⟨tellApart_iff.trans (Local.identifyVisited_iff_of_made hmade),
    fun htree l hl name hname ↦ ?_⟩
  obtain ⟨entry, -, hentry⟩ := Remote.exists_of_forall₂ hmade.flip hl
  rcases hentry.known name hname with hname | ⟨l', hlookup⟩
  · exact (Remote.isName_of_mem_segments hname).2
  · exact htree l' name hlookup

/-- What is true of a walk of a server. -/
theorem tellApart_of_walked {root : Str} {tree : FileTree} {recursive : Bool} {made : List Entry}
    {v : Remote.Server} (hroot : Remote.IsRoot root)
    (h : Remote.Walked root tree recursive directory made v) (entries : List Entry)
    (hentries : entries = Remote.sortEntries made) (files : List Location)
    (hfiles : files = (Remote.visited v.listings).take entries.length) :
    (TellApart (Remote.location root) (Remote.Shows tree) entries files ↔ NoBackslash files) ∧
      ((∀ l, tree.lookup l ≠ none → ∀ name ∈ l, backslash ∉ name) → NoBackslash files) := by
  subst hentries hfiles
  exact ⟨tellApart_iff.trans (h.identifyVisited_iff hroot),
    fun htree l hl ↦ htree l (h.lookup_visited hl)⟩

theorem Ftp.listShows {a : Ftp.Adapter} (ha : a.Valid) {tree : FileTree} :
    Ftp.ListShows a tree directory options fun entries files ↦
      (TellApart (Remote.location a.root) (Remote.Shows tree) entries files ↔ NoBackslash files) ∧
      ((∀ l, tree.lookup l ≠ none → ∀ name ∈ l, backslash ∉ name) → NoBackslash files) := by
  intro random t ctx s entries w heval
  obtain ⟨⟨made, hentries, hwalked, -⟩, -⟩ := heval.ensures (Ftp.ensures_list (P := False)
    (id : False → False) ha directory options nofun nofun rfl nofun)
  exact tellApart_of_walked ha.isRoot hwalked entries hentries _ rfl

theorem Sftp.listShows {a : Sftp.Adapter} (ha : a.Valid) {tree : FileTree} :
    Sftp.ListShows a tree directory options fun entries files ↦
      (TellApart (Remote.location a.root) (Remote.Shows tree) entries files ↔ NoBackslash files) ∧
      ((∀ l, tree.lookup l ≠ none → ∀ name ∈ l, backslash ∉ name) → NoBackslash files) := by
  intro random t ctx s entries w heval
  obtain ⟨⟨made, hentries, hwalked, -⟩, -⟩ := heval.ensures (Sftp.ensures_list (P := False)
    (id : False → False) ha directory options nofun nofun rfl nofun)
  exact tellApart_of_walked ha.isRoot hwalked entries hentries _ rfl

end

/-! ## Listings that succeed -/

theorem Local.eval_list (T : LinkTree) : ∃ w,
    Eval (Local.lookedAt ⟨8, true⟩ fun _ ↦ false) (Local.list ⟨.denySymlinks⟩ 0 .root {}) (T, [])
      (Local.shallowList ⟨.denySymlinks⟩ ⟨8, true⟩ T 0 .root) w := by
  have hlist : Ensures (Local.listAnswers ⟨8, true⟩ fun _ ↦ false) True
      (Local.list ⟨.denySymlinks⟩ 0 .root {}) T fun r T' ↦ T' = T ∧
        r = Local.shallowList ⟨.denySymlinks⟩ ⟨8, true⟩ T 0 .root :=
    Local.ensures_list rfl le_rfl
  obtain ⟨_, T₁, heval, -, rfl⟩ := hlist.eval
  obtain ⟨looked, heval⟩ := heval.noting Local.looksAt []
  exact ⟨_, heval⟩

/-- A root with two files. -/
def twoItems : LinkTree :=
  .flat [(.lit "a", { kind := .file, size := 4 }), (.lit "b", { kind := .file, size := 11 })]
    (by simpa using (by decide : IsName _ ∧ IsName _))

theorem children_twoItems : twoItems.children [] =
    [(.lit "a", { kind := .file, size := 4 }), (.lit "b", { kind := .file, size := 11 })] :=
  LinkTree.children_flat (by decide)

theorem Local.shallowList_twoItems : ∃ entries,
    Local.shallowList ⟨.denySymlinks⟩ ⟨8, true⟩ twoItems 0 .root = .ok entries ∧
      entries.length = 2 := by
  have hreadable : Local.Readable ⟨.denySymlinks⟩ ⟨8, true⟩ twoItems .root [] :=
    ⟨rfl, rfl, _, rfl, rfl, rfl⟩
  have hlistable : Local.Listable ⟨.denySymlinks⟩ [] (twoItems.children []) := by
    rw [children_twoItems]
    refine ⟨by simp [Kind.isLink], ?_⟩
    simp only [List.forall_mem_cons, List.not_mem_nil, false_implies, implies_true, and_true]
    exact ⟨⟨.a, by decide +kernel⟩, ⟨.b, by decide +kernel⟩⟩
  have hobstacle : Local.obstacleOf ⟨.denySymlinks⟩ ⟨8, true⟩ twoItems 0 .root = none := by
    unfold Local.obstacleOf Local.reached
    rw [hreadable.allowed, hreadable.opening_eq (by decide), children_twoItems]
    exact Local.obstacle_eq_none (by simp [Local.dirEntries, Local.dirEntryOf])
  have hnames : ∀ child ∈ Local.cut 0 (twoItems.children []), backslash ∉ child.1 := by
    rw [children_twoItems]
    decide
  obtain ⟨entries, hok, hentries⟩ := (Local.lists_iff hreadable hlistable).mpr
    ⟨by decide, hobstacle, hnames⟩
  refine ⟨entries, hok, ?_⟩
  rw [← List.length_map (f := Local.said), hentries, children_twoItems]
  rfl

/-- A listing with less than what there is. -/
theorem Ftp.list_twoFiles : ∃ entries w, Eval (Ftp.answers false [] (.call 0))
    (Ftp.list ⟨[slash], 10⟩ 0 .root { recursive := true, limit := 2 }) ({}, { tree := twoFiles })
      (.ok entries) w ∧ entries.length = 2 := by
  have hgives : Ftp.ListGives ⟨[slash], 10⟩ twoFiles .root { recursive := true, limit := 2 } _ :=
    Ftp.listGives (by decide) ⟨⟨[], rfl⟩, by decide⟩ rfl
  obtain ⟨hhalts, hsearched⟩ := hgives [] (.call 0) 0 {} ⟨⟨rfl, rfl, rfl⟩, rfl⟩
  obtain ⟨r, w, heval⟩ := hhalts.eval
  obtain ⟨entries, rfl, hlisting⟩ :=
    (hsearched r w heval).isExact trivial (unchanged_twoFiles.listable _ _)
  have hlength := hlisting.length_eq
  rw [size_twoFiles] at hlength
  exact ⟨entries, w, heval, Int.ofNat_inj.mp hlength⟩

/-- A listing with everything. -/
theorem Sftp.list_twoFiles : ∃ entries w, Eval (Sftp.answers false [] (.call 0))
    (Sftp.list ⟨[slash], 10, true⟩ 0 .root { recursive := true }) ({}, { tree := twoFiles })
      (.ok entries) w ∧ entries.length = 3 := by
  have hgives : Sftp.ListGives ⟨[slash], 10, true⟩ twoFiles .root { recursive := true } _ :=
    Sftp.listGives (by decide) ⟨⟨[], rfl⟩, by decide⟩ rfl
  obtain ⟨hhalts, hsearched⟩ := hgives [] (.call 0) 0 {} ⟨⟨rfl, rfl, rfl⟩, trivial⟩
  obtain ⟨r, w, heval⟩ := hhalts.eval
  obtain ⟨entries, rfl, hlisting⟩ :=
    (hsearched r w heval).isExact trivial (unchanged_twoFiles.listable _ _)
  have hlength := hlisting.length_eq
  rw [size_twoFiles] at hlength
  exact ⟨entries, w, heval, Int.ofNat_inj.mp hlength⟩

/-- **Entries and files.**  The entries of a successful `List` of the local, the FTP and
the SFTP adapter identify the files that the walk visited, with their kinds and sizes, and
tell them apart, if and only if no name on the way to one of them has a backslash; this is
so if there is none in the whole tree. -/
theorem listed_entries_identify (directory : Path) (options : ListOptions) :
    (∀ (a : Local.Adapter) (f : Following) (T : LinkTree),
      Local.ListShows a f T directory options fun entries files ↦
        (TellApart Path.segments (Local.Shows f T) entries files ↔ NoBackslash files) ∧
        ((∀ l name, T.lookup (l ++ [name]) ≠ none → backslash ∉ name) → NoBackslash files)) ∧
    (∀ (a : Ftp.Adapter) (tree : FileTree), a.Valid →
      Ftp.ListShows a tree directory options fun entries files ↦
        (TellApart (Remote.location a.root) (Remote.Shows tree) entries files ↔
          NoBackslash files) ∧
        ((∀ l, tree.lookup l ≠ none → ∀ name ∈ l, backslash ∉ name) → NoBackslash files)) ∧
    ∀ (a : Sftp.Adapter) (tree : FileTree), a.Valid →
      Sftp.ListShows a tree directory options fun entries files ↦
        (TellApart (Remote.location a.root) (Remote.Shows tree) entries files ↔
          NoBackslash files) ∧
        ((∀ l, tree.lookup l ≠ none → ∀ name ∈ l, backslash ∉ name) → NoBackslash files) :=
  ⟨fun _ _ _ ↦ Local.listShows, fun _ _ ha ↦ Ftp.listShows ha, fun _ _ ha ↦ Sftp.listShows ha⟩



/-- Two files of a local root, two of three objects on one server and all of them on
another. -/
theorem listed_entries_identify_files :
    (∃ entries w, Eval (Local.lookedAt ⟨8, true⟩ fun _ ↦ false)
      (Local.list ⟨.denySymlinks⟩ 0 .root {}) (twoItems, []) (.ok entries) w ∧
      entries.length = 2 ∧ TellApart Path.segments (Local.Shows ⟨8, true⟩ twoItems) entries
        (Local.visited Path.root.segments w.2)) ∧
    (∃ entries w, Eval (Ftp.answers false [] (.call 0))
      (Ftp.list ⟨[slash], 10⟩ 0 .root { recursive := true, limit := 2 }) ({}, { tree := twoFiles })
        (.ok entries) w ∧
      entries.length = 2 ∧ TellApart (Remote.location [slash]) (Remote.Shows twoFiles) entries
        ((Remote.visited w.2.listings).take entries.length)) ∧
    ∃ entries w, Eval (Sftp.answers false [] (.call 0))
      (Sftp.list ⟨[slash], 10, true⟩ 0 .root { recursive := true }) ({}, { tree := twoFiles })
        (.ok entries) w ∧
      entries.length = 3 ∧ TellApart (Remote.location [slash]) (Remote.Shows twoFiles) entries
        ((Remote.visited w.2.listings).take entries.length) := by
  have hnames : ∀ l, twoFiles.lookup l ≠ none → ∀ name ∈ l, backslash ∉ name :=
    fun _ ↦ unchanged_twoFiles.noBackslash
  refine ⟨?_, ?_, ?_⟩
  · obtain ⟨entries, hok, hlength⟩ := Local.shallowList_twoItems
    obtain ⟨w, heval⟩ := Local.eval_list twoItems
    rw [hok] at heval
    obtain ⟨hiff, hclean⟩ := (listed_entries_identify .root {}).1 _ _ _ _ _ _ _ heval
    refine ⟨entries, w, heval, hlength, hiff.mpr (hclean fun l name hlookup ↦ ?_)⟩
    obtain ⟨child, hchild, heq⟩ :=
      LinkTree.mem_toFinmap_atRoot.mp (LinkTree.mem_of_lookup hlookup)
    obtain ⟨-, rfl⟩ := List.append_singleton_inj.mp ((List.nil_append _).trans heq)
    clear hlookup heq
    revert child
    decide
  · obtain ⟨entries, w, heval, hlength⟩ := Ftp.list_twoFiles
    obtain ⟨hiff, hclean⟩ := (listed_entries_identify .root _).2.1 _ twoFiles
      ⟨⟨[], rfl⟩, by decide⟩ _ _ _ _ _ _ heval
    exact ⟨entries, w, heval, hlength, hiff.mpr (hclean hnames)⟩
  · obtain ⟨entries, w, heval, hlength⟩ := Sftp.list_twoFiles
    obtain ⟨hiff, hclean⟩ := (listed_entries_identify .root _).2.2 _ twoFiles
      ⟨⟨[], rfl⟩, by decide⟩ _ _ _ _ _ _ heval
    exact ⟨entries, w, heval, hlength, hiff.mpr (hclean hnames)⟩

/-- A root with one file in it, the name of which has a backslash. -/
def backslashed : LinkTree :=
  .flat [(.lit "a\\b", { kind := .file, size := 1 })] (by simpa using (by decide : IsName _))

theorem children_backslashed :
    backslashed.children [] = [(.lit "a\\b", { kind := .file, size := 1 })] :=
  LinkTree.children_flat (List.pairwise_singleton ..)

def rewritten : Entry where
  path := ⟨.lit "a/b", by decide⟩
  kind := .file
  size := 1

theorem visitAt_backslashed {entry : Local.DirEntry}
    (hentry : entry = Local.dirEntryOf (.lit "a\\b") { kind := .file, size := 1 }) :
    Local.visitAt ⟨.denySymlinks⟩ ⟨8, true⟩ backslashed { limit := 0 } [] [entry.name] entry [] =
      (.inl .ok, [rewritten]) := by
  have hname : entry.name = .lit "a\\b" := by rw [hentry]; rfl
  have hparse : parsePath (.lit "a\\b") = .ok rewritten.path := by decide +kernel
  have hlstat : backslashed.lstat ⟨8, true⟩ (Local.nameAt ([] ++ [.lit "a\\b"])) =
      .ok { kind := .file, size := 1 } :=
    (⟨nofun, rfl, rfl⟩ : Local.Reads ⟨8, true⟩ backslashed [] []).lstat rfl
  rw [Local.visitAt_child, Local.listAt, hname, hlstat, List.nil_append, Local.nameAt_singleton,
    hentry, Local.described, Local.collect, hparse]
  rfl

theorem shallowList_backslashed :
    Local.shallowList ⟨.denySymlinks⟩ ⟨8, true⟩ backslashed 0 .root = .ok [rewritten] := by
  have hreadable : Local.Readable ⟨.denySymlinks⟩ ⟨8, true⟩ backslashed .root [] :=
    ⟨rfl, rfl, _, rfl, rfl, rfl⟩
  unfold Local.shallowList Local.shallowWalk
  rw [hreadable.allowed, hreadable.opening_eq (by decide), children_backslashed,
    Local.dirEntries, List.map_singleton]
  dsimp only
  rw [Local.shallow, Local.segments_root, visitAt_backslashed rfl]
  exact congrArg Except.ok (List.mergeSort_singleton _)

/-- The path of the entry of a file leads to a place where there is none. -/
theorem list_rewrites_backslash : ∃ entries w,
    Eval (Local.lookedAt ⟨8, true⟩ fun _ ↦ false) (Local.list ⟨.denySymlinks⟩ 0 .root {})
      (backslashed, []) (.ok entries) w ∧
    ¬TellApart Path.segments (Local.Shows ⟨8, true⟩ backslashed) entries
      (Local.visited Path.root.segments w.2) := by
  obtain ⟨w, heval⟩ := Local.eval_list backslashed
  rw [shallowList_backslashed] at heval
  refine ⟨_, _, heval, fun ⟨⟨made, hperm, hmade⟩, _⟩ ↦ ?_⟩
  rw [← List.singleton_perm.mp hperm] at hmade
  obtain ⟨l, -, hidentifies⟩ := Remote.exists_of_forall₂ hmade List.mem_cons_self
  have hmissing : backslashed.lstat ⟨8, true⟩ (Local.nameAt [.lit "a", .lit "b"]) =
      .error .missing := rfl
  obtain ⟨rfl, item, hitem, -⟩ := hidentifies
  exact nomatch hmissing.symm.trans hitem

end GoFilesystem
