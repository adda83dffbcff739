import GoFilesystem.Atomicity

/-!
# Listings after writes

`Write` checks the names of a path together, `List` checks each name of the server on its
own.  A drive is not a path, but may be a name in one; and a name with a backslash becomes
a path of several names, or of another name.
-/

namespace GoFilesystem

open Go Conc Posix Remote PathName

/-- `List` returns one entry for the path, that of a file. -/
def ListsFile (path : Path) (r : Except Err (List Entry)) : Prop :=
  ∃ entries, r = .ok entries ∧ (entries.map Entry.path).count path = 1 ∧
    ∀ entry ∈ entries, entry.path = path → entry.kind = .file

variable {r : Except Err (List Entry)}

section

variable {root : Str} {tree : FileTree} {recursive : Bool} {limit : Int} {directory path : Path}
  {content : Str}

/-- What a file is beneath is a directory. -/
theorem Posix.FileTree.Beneath.lookup_start {start l : Location}
    (h : tree.Beneath recursive start l) : tree.lookup start = some .directory := by
  obtain ⟨rest, rfl⟩ := h.isPrefix
  have hexists := h.exists_lookup
  have hne : rest ≠ [] := fun hnil ↦ h.ne (by rw [hnil, List.append_nil])
  clear h
  induction rest using List.reverseRecOn with
  | nil => exact absurd rfl hne
  | append_singleton rest name ih =>
      rw [← List.append_assoc] at hexists
      have hparent := FileTree.lookup_parent hexists
      by_cases hnil : rest = []
      · rwa [hnil, List.append_nil] at hparent
      · exact ih (by simp [hparent]) hnil

theorem location_dir_append_base (root : Str) (hpath : path ≠ .root) :
    location root path.dir ++ [path.base] = location root path := by
  rw [location, location, Path.segments_dir_base hpath, List.append_assoc]

/-- The path is in its directory, and beneath the root. -/
theorem beneath_of_dir (hfile : tree.lookup (location root path) = some (.file content))
    (hpath : path ≠ .root) (h : directory = path.dir ∨ directory = .root ∧ recursive = true) :
    tree.Beneath recursive (location root directory) (location root path) := by
  have hexists : tree.lookup (location root path) ≠ none := by simp [hfile]
  rcases h with rfl | ⟨rfl, rfl⟩
  · have hlocation := (location_dir_append_base root hpath).symm
    exact ⟨hexists, hlocation ▸ List.prefix_append .., by simp [hlocation], by simp [hlocation]⟩
  · have hroot : location root .root = elements root := List.append_nil _
    rw [hroot]
    have hne := Path.segments_ne_nil hpath
    exact ⟨hexists, List.prefix_append .., by simpa [location] using hne, by simp⟩

/-- `ListsFile` for a listing that is exact. -/
theorem Remote.IsExact.listsFile (h : IsExact root tree recursive limit directory r)
    (hsize : tree.size recursive (location root directory) ≤ limit)
    (hbeneath : tree.Beneath recursive (location root directory) (location root path))
    (hfile : tree.lookup (location root path) = some (.file content)) : ListsFile path r := by
  obtain ⟨entries, rfl, h⟩ := h
  refine ⟨entries, rfl, ?_, ?_⟩
  · obtain ⟨entry, hentry, heq⟩ := h.complete hsize _ hbeneath
    have hmem := List.mem_map_of_mem (f := Entry.path) hentry
    rw [Path.segments_injective (List.append_cancel_left heq)] at hmem
    refine List.count_eq_one_of_mem (List.pairwise_map.mpr (h.increasing.imp ?_)) hmem
    exact fun hlt heq ↦ hlt.ne (congrArg Path.value heq)
  · rintro entry hentry rfl
    obtain ⟨object, hlookup, hfits⟩ := h.fits entry hentry
    cases hfile.symm.trans hlookup
    exact hfits.1

end

/-! ## The directory of a path -/

/-- `Join` accepts every name beside the path, and none but its own gives the path. -/
def Undisturbed (root : Str) (tree : FileTree) (path : Path) : Prop :=
  ∀ name, tree.lookup (location root path.dir ++ [name]) ≠ none →
    ∃ joined, path.dir.join name = .ok joined ∧ (joined = path → name = path.base)

section

variable {root : Str} {tree : FileTree} {limit : Int} {directory path : Path} {content : Str}
  {made : List Entry} {children : List Child} {v : Server}

/-- A walk that is not recursive makes its entries of what is in the directory, if the
limit allows it. -/
theorem Remote.Walked.forall₂_made (h : Walked root tree false directory made v)
    (hlength : made.length = limit ∨ made.length = (shown v.listings).length)
    (hsize : tree.size false (location root directory) ≤ limit) :
    ∃ children, Listing tree (location root directory) children ∧
      List.Forall₂ (Made directory) made children := by
  obtain ⟨⟨_, children⟩, hlistings, rfl⟩ := List.map_eq_singleton_iff.mp (h.shallow rfl)
  have hlisting : Listing tree (location root directory) children :=
    h.listings _ (hlistings ▸ List.mem_singleton_self _)
  have hordered := hlisting.perm (inOrder_perm children)
  have hshown : shown v.listings =
      (inOrder children).map fun child ↦ (location root directory, child) := by
    rw [hlistings, shown, List.flatMap_singleton]
  have hle : (inOrder children).length ≤ tree.size false (location root directory) := by
    have hbeneath : ∀ l ∈ FileTree.children (location root directory)
        ((inOrder children).map Child.name), tree.Beneath false (location root directory) l := by
      intro l hl
      obtain ⟨name, hname, rfl⟩ := List.mem_map.mp hl
      obtain ⟨child, hchild, rfl⟩ := List.mem_map.mp hname
      exact hordered.beneath List.prefix_rfl (fun _ ↦ rfl) hchild
    have hnodup := hordered.lists.nodup.map (f := fun name ↦ location root directory ++ [name])
      fun _ _ heq ↦ List.singleton_inj.mp (List.append_cancel_left heq)
    simpa [FileTree.children] using FileTree.length_le_size hnodup hbeneath
  have hentries := h.entries
  rw [hshown, List.take_of_length_le ?_, List.forall₂_map_right_iff] at hentries
  · refine ⟨inOrder children, hordered, hentries.imp ?_⟩
    rintro entry child ⟨current, heq, hmade⟩
    rwa [Path.segments_injective (List.append_cancel_left heq)] at hmade
  · rw [hshown, List.length_map] at hlength
    rw [List.length_map]
    omega

theorem length_filter_eq_one_iff {α : Type} {l : List α} {p : α → Bool} (hnodup : l.Nodup) {a : α}
    (ha : a ∈ l) (hp : p a = true) :
    (l.filter p).length = 1 ↔ ∀ b ∈ l, p b = true → b = a := by
  constructor
  · intro hlength b hb hpb
    obtain ⟨c, hc⟩ := List.length_eq_one_iff.mp hlength
    have heq : ∀ x ∈ l, p x = true → x = c := fun x hx hpx ↦
      List.mem_singleton.mp (hc ▸ List.mem_filter.mpr ⟨hx, hpx⟩)
    rw [heq b hb hpb, heq a ha hp]
  · intro hunique
    have hperm : (l.filter p).Perm [a] := by
      refine (List.perm_ext_iff_of_nodup (hnodup.filter p) (List.nodup_singleton a)).mpr fun b ↦ ?_
      rw [List.mem_filter, List.mem_singleton]
      exact ⟨fun h ↦ hunique b h.1 h.2, fun h ↦ h ▸ ⟨ha, hp⟩⟩
    exact hperm.length_eq

/-- A path stands once among the entries, if a name gives it and no other does. -/
theorem count_eq_one_iff_of_made (hmade : List.Forall₂ (Made directory) made children)
    (hnodup : (children.map Child.name).Nodup) {name : Str}
    (hname : name ∈ children.map Child.name) (hjoin : directory.join name = .ok path) :
    (made.map Entry.path).count path = 1 ↔
      ∀ name' ∈ children.map Child.name, directory.join name' = .ok path → name' = name := by
  have hpaths : (made.map Entry.path).map Except.ok =
      (children.map Child.name).map directory.join := by
    clear hnodup hname
    induction hmade with
    | nil => rfl
    | cons hentry _ ih => exact congrArg₂ List.cons hentry.join_eq.symm ih
  have hcount : (made.map Entry.path).count path = ((children.map Child.name).filter
      fun name ↦ directory.join name = .ok path).length := by
    have hinjective : Function.Injective (Except.ok : Path → Except PathError Path) :=
      fun _ _ ↦ Except.ok.inj
    rw [← List.count_map_of_injective _ _ hinjective path, hpaths, List.count_eq_length_filter,
      List.filter_map, List.length_map]
    rfl
  rw [hcount, length_filter_eq_one_iff hnodup hname (decide_eq_true hjoin)]
  simp only [decide_eq_true_eq]

theorem join_base_eq (hpath : path ≠ .root) (hname : IsName path.base) {joined : Path}
    (h : path.dir.join path.base = .ok joined) : joined = path := by
  have hbase : path.base ∈ path.segments := by
    rw [Path.segments_dir_base hpath]
    exact List.mem_append_right _ (List.mem_singleton_self _)
  have hlocation := (location_join_iff [] hname h).mpr (isName_of_mem_segments hbase).2
  rw [location_dir_append_base [] hpath] at hlocation
  exact Path.segments_injective (List.append_cancel_left hlocation)

/-- `List` of the directory of a path, with the condition for it to have the file. -/
theorem Remote.Searched.listsFile_iff (h : Searched True root tree false limit path.dir v r)
    (hsize : tree.size false (location root path.dir) ≤ limit) (hpath : path ≠ .root)
    (hfile : tree.lookup (location root path) = some (.file content)) :
    ListsFile path r ↔ Undisturbed root tree path := by
  have hexists : tree.lookup (location root path.dir ++ [path.base]) ≠ none := by
    rw [location_dir_append_base root hpath, hfile]
    exact nofun
  cases r with
  | error err =>
      refine iff_of_false (by rintro ⟨_, ⟨⟩, _⟩) fun hundisturbed ↦ ?_
      obtain ⟨l, name, hbeneath, -, hrejected | ⟨⟨⟩, -⟩⟩ := h trivial
      obtain ⟨rest, heq⟩ := hbeneath.isPrefix
      have hlength := hbeneath.length_eq rfl
      rw [← heq, List.length_append, Nat.add_left_cancel_iff] at hlength
      obtain ⟨name', rfl⟩ := List.length_eq_one_iff.mp hlength
      obtain ⟨rfl, rfl⟩ := List.append_singleton_inj.mp heq
      obtain ⟨joined, hjoined, -⟩ := hundisturbed name' hbeneath.exists_lookup
      exact hrejected ((Path.exists_join_iff path.dir name').mp ⟨joined, hjoined⟩)
  | ok entries =>
      obtain ⟨⟨made, rfl, hwalked, hlength⟩, -⟩ := h
      obtain ⟨children, hlisting, hmade⟩ := hwalked.forall₂_made hlength hsize
      have hjoined (name : Str) (hname : name ∈ children.map Child.name) :
          ∃ joined, path.dir.join name = .ok joined := by
        obtain ⟨child, hchild, rfl⟩ := List.mem_map.mp hname
        obtain ⟨entry, -, hentry⟩ := exists_of_forall₂ hmade.flip hchild
        exact ⟨_, hentry.join_eq⟩
      have hbase := (hlisting.lists.mem_iff _).mpr hexists
      obtain ⟨joined, hjoin⟩ := hjoined _ hbase
      rw [join_base_eq hpath (FileTree.isName_of_lookup hexists) hjoin] at hjoin
      have hcount := count_eq_one_iff_of_made hmade hlisting.lists.nodup hbase hjoin
      rw [← ((List.mergeSort_perm made _).map Entry.path).count_eq path] at hcount
      constructor
      · rintro ⟨_, ⟨⟩, hone, -⟩ name hname
        have hmem := (hlisting.lists.mem_iff _).mpr hname
        obtain ⟨joined, hjoined⟩ := hjoined name hmem
        exact ⟨joined, hjoined, fun heq ↦ hcount.mp hone name hmem (heq ▸ hjoined)⟩
      · intro hundisturbed
        have hunique : ∀ name ∈ children.map Child.name, path.dir.join name = .ok path →
            name = path.base := by
          intro name hname heq
          obtain ⟨joined, hjoined, hunique⟩ :=
            hundisturbed name ((hlisting.lists.mem_iff _).mp hname)
          exact hunique (Except.ok.inj (hjoined.symm.trans heq))
        refine ⟨_, rfl, hcount.mpr hunique, fun entry hentry heq ↦ ?_⟩
        obtain ⟨child, hchild, hentry⟩ := exists_of_forall₂ hmade (List.mem_mergeSort.mp hentry)
        obtain ⟨object, hobject, hdescribes⟩ := hlisting.describes child hchild
        rw [hunique _ (List.mem_map_of_mem hchild) (heq ▸ hentry.join_eq),
          location_dir_append_base root hpath, hfile] at hobject
        cases hobject
        exact (hentry.fits hdescribes).1

end

/-! ## Writes and listings -/

/-- What a listing makes of the file of a path.  It has the file if `ParsePath` leaves every
name that is to be listed as it is; if there is another name, it has read one.  For the
directory of the path, the condition is exact. -/
structure Relists (root : Str) (tree : FileTree) (path directory : Path) (recursive : Bool)
    (r : Except Err (List Entry)) (v : Server) : Prop where
  listed : Listable root tree recursive directory → ListsFile path r
  altered : ¬Listable root tree recursive directory → ∃ name ∈ namesRead v.listings, ¬Verbatim name
  shallow : recursive = false → (ListsFile path r ↔ Undisturbed root tree path)

theorem Remote.Searched.relists {root : Str} {tree : FileTree} {recursive : Bool} {limit : Int}
    {directory path : Path} {content : Str} {v : Server}
    (h : Searched True root tree recursive limit directory v r)
    (hsize : tree.size recursive (location root directory) ≤ limit) (hpath : path ≠ .root)
    (hdirectory : directory = path.dir ∨ directory = .root ∧ recursive = true)
    (hfile : tree.lookup (location root path) = some (.file content)) :
    Relists root tree path directory recursive r v where
  listed hlistable := (h.isExact trivial hlistable).listsFile hsize
    (beneath_of_dir hfile hpath hdirectory) hfile
  altered := h.exists_altered trivial hsize
  shallow := by
    rintro rfl
    obtain rfl := hdirectory.resolve_right (by simp)
    exact h.listsFile_iff hsize hpath hfile

/-- **Listings after writes.**  After a successful `Write` through the adapters for
servers, `List` of the directory of the path, and recursive `List` of the root, end.  They
succeed with exactly one entry for the path, that of a file, if `ParsePath` accepts every
name that is to be listed and leaves it as it is; if there is another name, they have read
one.  `List` of the directory without recursion does so if and only if `Join` accepts every
name in it and no other name gives the path. -/
theorem written_listed (random : Str) (path directory : Path) (options : ListOptions)
    (hoptions : 0 ≤ options.limit)
    (hdirectory : directory = path.dir ∨ directory = .root ∧ options.recursive = true) :
    (∀ (a : Sftp.Adapter) (writeOptions : WriteOptions) (v : Sftp.Outside), a.Valid →
      v.received = [] → location a.root path ≠ temporaryLocation a.root random path →
      Sftp.WriteLeaves a false random path writeOptions v fun r v' ↦ r.isOk = true →
        v'.tree.size options.recursive (location a.root directory) ≤
          effectiveListLimit options.limit a.maxList →
        Sftp.ListGives a v'.tree directory options
          (Relists a.root v'.tree path directory options.recursive)) ∧
    ∀ (a : Ftp.Adapter) (source : Source) (writeOptions : WriteOptions) (v : Server), a.Valid →
      location a.root path ≠ temporaryLocation a.root random path →
      Ftp.WriteLeaves a false random path source writeOptions v fun r v' ↦ r.isOk = true →
        v'.tree.size options.recursive (location a.root directory) ≤
          effectiveListLimit options.limit a.maxList →
        Ftp.ListGives a v'.tree directory options
          (Relists a.root v'.tree path directory options.recursive) := by
  constructor
  · intro a writeOptions v ha hreceived hne t ctx s r w heval hok hsize random t ctx s hs
    obtain ⟨hpath, -, hfinishes⟩ := (heval.ensures (Sftp.ensures_write
      (of_uploadOf ha.isRoot · hne) hreceived)).resolve_left (by simp [hok])
    obtain ⟨-, hfile, -⟩ := hfinishes.leaves.resolve_left fun h ↦ h.1 hok
    have hstart := (beneath_of_dir hfile hpath hdirectory).lookup_start
    obtain ⟨hhalts, hsearched⟩ := Sftp.listGives hoptions ha hstart random t ctx s hs
    exact ⟨hhalts, fun r w heval ↦ (hsearched r w heval).relists hsize hpath hdirectory hfile⟩
  · intro a source writeOptions v ha hne t ctx s r w heval hok hsize random t ctx s hs
    obtain ⟨hpath, -, hfinishes⟩ := (heval.ensures (Ftp.ensures_write ha.isRoot
      (of_uploadOf ha.isRoot · hne))).resolve_left (by simp [hok])
    obtain ⟨-, hfile, -⟩ := hfinishes.leaves.resolve_left fun h ↦ h.1 hok
    have hstart := (beneath_of_dir hfile hpath hdirectory).lookup_start
    obtain ⟨hhalts, hsearched⟩ := Ftp.listGives hoptions ha hstart random t ctx s hs
    exact ⟨hhalts, fun r w heval ↦ (hsearched r w heval).relists hsize hpath hdirectory hfile⟩

/-- After `Write` of `d/c:x`, the listings of `d` and of everything. -/
theorem written_listed_drive : ∃ metadata w, Ftp.DriveWritten (.ok metadata) w ∧
    Ftp.ListGives ⟨[slash], 10⟩ w.2.tree drivePath.dir {}
      (Relists [slash] w.2.tree drivePath drivePath.dir false) ∧
    Ftp.ListGives ⟨[slash], 10⟩ w.2.tree .root { recursive := true }
      (Relists [slash] w.2.tree drivePath .root true) := by
  obtain ⟨metadata, s, heval⟩ := Ftp.driveWritten
  have hne : location [slash] drivePath ≠ temporaryLocation [slash] [] drivePath := by
    decide +kernel
  have hsize : driveTree.size false (location [slash] drivePath.dir) ≤ (10 : Int) := by
    decide +kernel
  have hall : driveTree.size true (location [slash] .root) ≤ (10 : Int) := by decide +kernel
  refine ⟨metadata, _, heval, ?_, ?_⟩
  · exact (written_listed [] drivePath drivePath.dir {} (by decide) (.inl rfl)).2 _ _ _ _
      ⟨⟨[], rfl⟩, by decide⟩ hne _ _ _ _ _ heval rfl hsize
  · exact (written_listed [] drivePath .root { recursive := true } (by decide) (.inr ⟨rfl, rfl⟩)).2
      _ _ _ _ ⟨⟨[], rfl⟩, by decide⟩ hne _ _ _ _ _ heval rfl hall

/-- `Write` of `d/c:x` succeeds, and after it `List` of `d` does not have the file. -/
theorem written_not_listed : ∃ metadata w, Ftp.DriveWritten (.ok metadata) w ∧
    Ftp.ListGives ⟨[slash], 10⟩ w.2.tree drivePath.dir {} fun r _ ↦ ¬ListsFile drivePath r := by
  obtain ⟨metadata, s, heval⟩ := Ftp.driveWritten
  have hfile : driveTree.lookup (location [slash] drivePath) = some (.file (.lit "new")) := rfl
  refine ⟨metadata, _, heval, fun random t ctx s hs ↦ ?_⟩
  have hgives : Ftp.ListGives ⟨[slash], 10⟩ driveTree drivePath.dir {} _ :=
    Ftp.listGives (by decide) ⟨⟨[], rfl⟩, by decide⟩ rfl
  obtain ⟨hhalts, hsearched⟩ := hgives random t ctx s hs
  refine ⟨hhalts, fun r w heval hlists ↦ ?_⟩
  have hundisturbed := ((hsearched r w heval).listsFile_iff (by decide +kernel) (by decide)
    hfile).mp hlists
  obtain ⟨joined, hjoined, -⟩ := hundisturbed (.lit "c:x") (by decide +kernel)
  exact nomatch hjoined.symm.trans (by rfl : drivePath.dir.join (.lit "c:x") = .error _)

end GoFilesystem
