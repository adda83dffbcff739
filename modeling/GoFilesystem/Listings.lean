import GoFilesystem.Ftp.Listing
import GoFilesystem.Sftp.Listing

/-!
# Listings of servers

`List` of the two adapters for servers, as one call on its own: what it returns from a
server that has no faults.
-/

namespace GoFilesystem

open Go Conc Posix Remote PathName

/-- If nothing keeps it from going on, `List` of the FTP adapter ends whatever the server
answers, and what it returns and what it has read have a property. -/
def Ftp.ListGives (a : Ftp.Adapter) (tree : FileTree) (directory : Path) (options : ListOptions)
    (Q : Except Err (List Entry) → Server → Prop) : Prop :=
  ∀ random t ctx s, Ftp.Idle ctx false false s →
    Halts (Ftp.answers false random t) (Ftp.list a ctx directory options) (s, { tree }) ∧
    ∀ r w, Eval (Ftp.answers false random t) (Ftp.list a ctx directory options) (s, { tree }) r w →
      Q r w.2

/-- If nothing keeps it from going on, `List` of the SFTP adapter ends whatever the server
answers, and what it returns and what it has read have a property. -/
def Sftp.ListGives (a : Sftp.Adapter) (tree : FileTree) (directory : Path) (options : ListOptions)
    (Q : Except Err (List Entry) → Server → Prop) : Prop :=
  ∀ random t ctx s, Sftp.Idle ctx false s →
    Halts (Sftp.answers false random t) (Sftp.list a ctx directory options) (s, { tree }) ∧
    ∀ r w, Eval (Sftp.answers false random t) (Sftp.list a ctx directory options)
      (s, { tree }) r w → Q r w.2.toServer

section

variable {tree : FileTree} {directory : Path} {options : ListOptions}
  (hoptions : 0 ≤ options.limit)
include hoptions

theorem Ftp.listGives {a : Ftp.Adapter} (ha : a.Valid)
    (hdirectory : tree.lookup (location a.root directory) = some .directory) :
    Ftp.ListGives a tree directory options fun r v ↦ Searched True a.root tree options.recursive
      (effectiveListLimit options.limit a.maxList) directory v r := by
  intro random t ctx s hs
  have hlist : Ensures (Ftp.answers false random t) True (Ftp.list a ctx directory options)
      (s, { tree }) _ :=
    Ftp.ensures_list (P := True) id ha directory options (fun _ ↦ hoptions) (fun _ ↦ hdirectory)
      rfl fun _ ↦ hs
  exact ⟨hlist.halts, fun r w heval ↦ heval.ensures hlist⟩

theorem Sftp.listGives {a : Sftp.Adapter} (ha : a.Valid)
    (hdirectory : tree.lookup (location a.root directory) = some .directory) :
    Sftp.ListGives a tree directory options fun r v ↦ Searched True a.root tree options.recursive
      (effectiveListLimit options.limit a.maxList) directory v r := by
  intro random t ctx s hs
  have hlist : Ensures (Sftp.answers false random t) True (Sftp.list a ctx directory options)
      (s, { tree }) _ :=
    Sftp.ensures_list (P := True) id ha directory options (fun _ ↦ hoptions) (fun _ ↦ hdirectory)
      rfl fun _ ↦ hs
  exact ⟨hlist.halts, fun r w heval ↦ heval.ensures hlist⟩

end

/-- Every name beneath the root is accepted by `ParsePath` and left as it is. -/
def Unchanged (root : Str) (tree : FileTree) : Prop :=
  ∀ l name, tree.lookup (elements root ++ l ++ [name]) ≠ none → Verbatim name

theorem Unchanged.listable {root : Str} {tree : FileTree} (h : Unchanged root tree)
    (recursive : Bool) (directory : Path) : Listable root tree recursive directory := by
  intro l name hbeneath
  obtain ⟨rest, heq⟩ := hbeneath.isPrefix
  have hne : rest ≠ [] := fun hnil ↦ hbeneath.ne (by rw [← heq, hnil, List.append_nil])
  rw [← List.dropLast_concat_getLast hne, ← List.append_assoc] at heq
  obtain ⟨rfl, -⟩ := List.append_singleton_inj.mp heq
  refine h (directory.segments ++ rest.dropLast) name ?_
  simpa [location] using hbeneath.exists_lookup

theorem Unchanged.noBackslash {tree : FileTree} (h : Unchanged [slash] tree) {l : Location}
    (hl : tree.lookup l ≠ none) : ∀ name ∈ l, backslash ∉ name := by
  induction l using List.reverseRecOn with
  | nil => simp
  | append_singleton l name ih =>
      intro x hx
      rcases List.mem_append.mp hx with hx | hx
      · exact ih (by simp [FileTree.lookup_parent hl]) x hx
      · rw [List.mem_singleton.mp hx]
        exact (h l name hl).noBackslash

/-- **Listings of servers are exact.**  If every name beneath the root is a path of its
own, `List` of a directory ends and returns what is in the directory, or beneath it if
the listing is recursive, in the order of the paths and with kinds and sizes.  If there
is more than the limit allows, it returns as many of these entries as the limit says. -/
theorem listings_exact (tree : FileTree) (directory : Path) (options : ListOptions)
    (hoptions : 0 ≤ options.limit) :
    (∀ a : Ftp.Adapter, a.Valid → Unchanged a.root tree →
      tree.lookup (location a.root directory) = some .directory →
      Ftp.ListGives a tree directory options fun r _ ↦ IsExact a.root tree options.recursive
        (effectiveListLimit options.limit a.maxList) directory r) ∧
    ∀ a : Sftp.Adapter, a.Valid → Unchanged a.root tree →
      tree.lookup (location a.root directory) = some .directory →
      Sftp.ListGives a tree directory options fun r _ ↦ IsExact a.root tree options.recursive
        (effectiveListLimit options.limit a.maxList) directory r := by
  constructor
  · intro a ha htree hdirectory random t ctx s hs
    obtain ⟨hhalts, hsearched⟩ := Ftp.listGives hoptions ha hdirectory random t ctx s hs
    exact ⟨hhalts, fun r w heval ↦ (hsearched r w heval).isExact trivial (htree.listable _ _)⟩
  · intro a ha htree hdirectory random t ctx s hs
    obtain ⟨hhalts, hsearched⟩ := Sftp.listGives hoptions ha hdirectory random t ctx s hs
    exact ⟨hhalts, fun r w heval ↦ (hsearched r w heval).isExact trivial (htree.listable _ _)⟩

/-! ## A directory with a file, and another file -/

/-- A file and an empty directory. -/
def fileAndDirectory : FileTree :=
  (FileTree.empty.add [] (.lit "a") (.file (.lit "text")) (by decide) rfl rfl).add [] (.lit "d")
    .directory (by decide) rfl rfl

theorem lookup_fileAndDirectory : fileAndDirectory.lookup [.lit "d"] = some .directory := rfl

/-- A file, and a directory with one. -/
def twoFiles : FileTree :=
  fileAndDirectory.add [.lit "d"] (.lit "x") (.file (.lit "longer text")) (by decide)
    lookup_fileAndDirectory rfl

theorem Unchanged.add {root : Str} {tree : FileTree} {l : Location} {name : Str} {object : Object}
    {hname : IsName name} {hdirectory : tree.lookup l = some .directory}
    {hnew : tree.lookup (l ++ [name]) = none} (h : Unchanged root tree)
    (hverbatim : Verbatim name) :
    Unchanged root (tree.add l name object hname hdirectory hnew) := by
  intro l' name' hlookup
  rw [FileTree.sets_add] at hlookup
  split at hlookup
  · rename_i heq
    exact (List.append_singleton_inj.mp heq).2 ▸ hverbatim
  · exact h l' name' hlookup

theorem unchanged_twoFiles : Unchanged [slash] twoFiles := by
  have hempty : Unchanged [slash] .empty := fun l name h ↦
    absurd (FileTree.mem_of_lookup h) Finmap.notMem_empty
  refine Unchanged.add (Unchanged.add (Unchanged.add hempty ?_) ?_) ?_
  · exact ⟨⟨.lit "a", .inr (by decide)⟩, by decide +kernel, rfl⟩
  · exact ⟨⟨.lit "d", .inr (by decide)⟩, by decide +kernel, rfl⟩
  · exact ⟨⟨.lit "x", .inr (by decide)⟩, by decide +kernel, rfl⟩

theorem size_twoFiles : twoFiles.size true (location [slash] .root) = 3 := by decide +kernel

/-- Two of the three objects that are beneath the root, and all of them. -/
theorem listings_exact_twoFiles : twoFiles.size true (location [slash] .root) = 3 ∧
    (Ftp.ListGives ⟨[slash], 10⟩ twoFiles .root { recursive := true, limit := 2 } fun r _ ↦
      IsExact [slash] twoFiles true 2 .root r) ∧
    Sftp.ListGives ⟨[slash], 10, true⟩ twoFiles .root { recursive := true } fun r _ ↦
      IsExact [slash] twoFiles true 10 .root r :=
  ⟨size_twoFiles,
    (listings_exact twoFiles .root { recursive := true, limit := 2 } (by decide)).1 ⟨[slash], 10⟩
      ⟨⟨[], rfl⟩, by decide⟩ unchanged_twoFiles rfl,
    (listings_exact twoFiles .root { recursive := true } (by decide)).2 ⟨[slash], 10, true⟩
      ⟨⟨[], rfl⟩, by decide⟩ unchanged_twoFiles rfl⟩

end GoFilesystem
