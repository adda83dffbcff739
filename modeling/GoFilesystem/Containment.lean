import GoFilesystem.Ftp.Remote
import GoFilesystem.Sftp.Remote

/-!
# What remote names stand for

The adapters for servers make all their names with `path.Join` and `path.Clean`.  For
a root that `validateRoot` returns and a path these functions change nothing: a remote
name is the root, a slash and the path.
-/

namespace GoFilesystem

open Go Posix Remote PathName

def beneath (directory name : Str) : Str :=
  if directory = [slash] then slash :: name else directory ++ slash :: name

/-- The name leads further down than the directory. -/
def IsUnder (directory name : Str) : Prop := ∃ rest, rest ≠ [] ∧ name = beneath directory rest

/-- What `validateRoot` guarantees. -/
structure IsCleanRoot (root : Str) : Prop where
  absolute : root.head? = some slash
  clean_eq : clean root = root
  noParent : parent ∉ root.splitOn slash
  ftp : Ftp.validateRoot root = .ok root
  sftp : Sftp.validateRoot root = .ok root

/-- The names that an adapter makes stay beneath its root. -/
structure IsContained (root : Str) (remotePath : Path → Str)
    (linkCandidates : Path → Bool → List Str) (temporaryPath : Str → Str → Str) : Prop where
  remotePath_root : remotePath .root = root
  remotePath_eq : ∀ path, path ≠ .root → remotePath path = beneath root path.value
  injective : Function.Injective remotePath
  isUnder : ∀ path, path ≠ .root → IsUnder root (remotePath path)
  candidates_root : ∀ includeFinal, ∀ name ∈ linkCandidates .root includeFinal, name = root
  candidates_under : ∀ path, path ≠ .root → ∀ includeFinal,
    ∀ name ∈ linkCandidates path includeFinal,
      IsUnder root name ∧ (name = remotePath path ∨ IsUnder name (remotePath path))
  temporary : ∀ path, path ≠ .root → ∀ random,
    dir (temporaryPath (dir (remotePath path)) random) = dir (remotePath path)

/-! ## Absolute names -/

def nameAt (l : Location) : Str := slash :: [slash].intercalate l

section Absolute

variable {l l' : Location}

theorem nameAt_eq_slash_iff (h : ∀ name ∈ l, IsName name) : nameAt l = [slash] ↔ l = [] := by
  constructor
  · intro heq
    have helements := congrArg elements heq
    rw [nameAt, elements_cons_slash, elements_intercalate] at helements
    · exact helements
    · exact fun name hname ↦ ⟨(h name hname).noSlash, (h name hname).ne_nil, (h name hname).ne_dot⟩
  · rintro rfl
    rfl

theorem nameAt_append (h : ∀ name ∈ l, IsName name) (hl' : l' ≠ []) :
    nameAt (l ++ l') = beneath (nameAt l) ([slash].intercalate l') := by
  unfold beneath
  by_cases hl : l = []
  · rw [if_pos ((nameAt_eq_slash_iff h).mpr hl), hl]
    rfl
  · rw [if_neg (mt (nameAt_eq_slash_iff h).mp hl)]
    unfold nameAt
    rw [intercalate_append [slash] hl hl']
    simp

theorem isUnder_nameAt (h : ∀ name ∈ l, IsName name) (hl' : l' ≠ [])
    (h' : ∀ name ∈ l', IsName name) : IsUnder (nameAt l) (nameAt (l ++ l')) := by
  refine ⟨_, fun hnil ↦ ?_, nameAt_append h hl'⟩
  refine hl' ((nameAt_eq_slash_iff h').mp ?_)
  rw [nameAt, hnil]

end Absolute

/-! ## The names of an adapter -/

section Names

variable {root : Str} (hroot : IsRoot root)

include hroot in
theorem isCleanRoot : IsCleanRoot root where
  absolute := by
    rw [hroot.eq_intercalate]
    rfl
  clean_eq := by
    have habsolute : root.head? = some slash := by
      rw [hroot.eq_intercalate]
      rfl
    exact (clean_of_rooted hroot.plain habsolute).trans hroot.eq_intercalate.symm
  noParent := hroot.plain
  ftp := hroot.validateRoot_eq _
  sftp := hroot.validateRoot_eq _

include hroot in
theorem eq_nameAt : root = nameAt (elements root) := hroot.eq_intercalate

theorem isName_of_mem_path {path : Path} : ∀ name ∈ path.segments, IsName name :=
  fun _ hname ↦ (isName_of_mem_segments hname).1

include hroot in
/-- A remote name is the root, a slash and the path. -/
theorem remoteName_eq_beneath {path : Path} (hpath : path ≠ .root) :
    remoteName root path = beneath root path.value := by
  rw [remoteName_eq hroot, ← Path.intercalate_segments hpath]
  exact (nameAt_append hroot.isName (Path.segments_ne_nil hpath)).trans
    (congrArg (beneath · _) (eq_nameAt hroot).symm)

include hroot in
theorem remoteName_injective : Function.Injective (remoteName root) := by
  intro p q heq
  have hlocation : location root p = location root q := by
    rw [← elements_remoteName hroot, ← elements_remoteName hroot, heq]
  exact Path.segments_injective (List.append_cancel_left hlocation)

include hroot in
theorem isUnder_root {l : Location} (hl : l ≠ []) (hname : ∀ name ∈ l, IsName name) :
    IsUnder root (nameAt (elements root ++ l)) := by
  have hunder := isUnder_nameAt hroot.isName hl hname
  rwa [← eq_nameAt hroot] at hunder

/-- The only candidate for the root is the root. -/
theorem eq_of_mem_linkCandidates (hclean : IsCleanRoot root) {includeFinal : Bool} {name : Str}
    (h : name ∈ linkCandidates root .root includeFinal) : name = root := by
  obtain ⟨index, hindex, rfl⟩ := List.mem_map.mp h
  have hzero : index = 0 := by
    have hlt := List.mem_range.mp hindex
    cases includeFinal with
    | false => exact absurd hlt (Nat.not_lt_zero _)
    | true => exact Nat.lt_one_iff.mp hlt
  have hne : root ≠ [] := by
    rintro rfl
    exact nomatch hclean.absolute
  rw [hzero]
  change join [root, []] = root
  unfold join
  rw [List.filter_cons_of_pos (by simpa using hne)]
  simpa [hne] using hclean.clean_eq

include hroot in
/-- A temporary name is in the directory of its destination. -/
theorem dir_temporary {path : Path} (hpath : path ≠ .root) (random : Str) :
    dir (join [dir (remoteName root path), temporaryName random]) = dir (remoteName root path) := by
  have hname : ∀ name ∈ (location root path).dropLast ++ [temporaryName random], IsName name := by
    intro name hmem
    rcases List.mem_append.mp hmem with hmem | hmem
    · exact (isName_of_mem_location hroot path (List.mem_of_mem_dropLast hmem)).1
    · exact List.mem_singleton.mp hmem ▸ isName_temporaryName random
  have hplain : Plain (dir (remoteName root path)) := by
    rw [dir_remoteName hroot hpath]
    refine (plain_append_slash (a := [])).mpr ⟨plain_nil, plain_intercalate fun name hmem ↦ ?_⟩
    exact plain_of_isName (hname name (List.mem_append_left _ hmem))
  have hrooted : (dir (remoteName root path)).head? = some slash := by
    rw [dir_remoteName hroot hpath]
    rfl
  have hjoin : join [dir (remoteName root path), temporaryName random] =
      nameAt ((location root path).dropLast ++ [temporaryName random]) := by
    rw [join_of_rooted (by simp [hplain, plain_of_isName (isName_temporaryName random)]) hrooted]
    have htemporary := isName_temporaryName random
    simp [nameAt, elements_dir_remoteName hroot hpath,
      elements_eq_singleton htemporary.noSlash htemporary.ne_nil htemporary.ne_dot]
  rw [hjoin, nameAt, dir_of_elements fun name hmem ↦ ?_, dir_remoteName hroot hpath]
  have h := hname name hmem
  exact ⟨h.noSlash, h.ne_nil, h.ne_dot, h.ne_parent⟩

include hroot in
/-- The names of an adapter stay beneath its root. -/
theorem isContained : IsContained root (remoteName root) (linkCandidates root)
    fun directory random ↦ join [directory, temporaryName random] where
  remotePath_root := rfl
  remotePath_eq _ := remoteName_eq_beneath hroot
  injective := remoteName_injective hroot
  isUnder path hpath := by
    rw [remoteName_eq hroot]
    exact isUnder_root hroot (Path.segments_ne_nil hpath) isName_of_mem_path
  candidates_root _ _ := eq_of_mem_linkCandidates (isCleanRoot hroot)
  candidates_under path hpath includeFinal name hname := by
    obtain ⟨l, l', hl, hsegments, rfl⟩ := exists_of_mem_linkCandidates hroot hpath hname
    have hsegment (x : Str) (hx : x ∈ l ++ l') : IsName x :=
      isName_of_mem_path x (hsegments ▸ hx)
    have hl' (x : Str) (hx : x ∈ l) : IsName x := hsegment x (List.mem_append_left _ hx)
    refine ⟨isUnder_root hroot hl hl', ?_⟩
    rw [remoteName_eq hroot, location, hsegments]
    by_cases hnil : l' = []
    · rw [hnil, List.append_nil]
      exact .inl rfl
    · rw [← List.append_assoc]
      refine .inr (isUnder_nameAt (fun x hx ↦ ?_) hnil fun x hx ↦ ?_)
      · exact (List.mem_append.mp hx).elim (hroot.isName x) (hl' x)
      · exact hsegment x (List.mem_append_right _ hx)
  temporary _ hpath := dir_temporary hroot hpath

end Names

theorem validateRoot_iff {configured root : Str} :
    Ftp.validateRoot configured = .ok root ↔ Sftp.validateRoot configured = .ok root := by
  unfold Ftp.validateRoot Sftp.validateRoot Remote.validateRoot
  split_ifs with hnil habsolute
  · rfl
  · exact ⟨fun h ↦ (nomatch h), fun h ↦ (nomatch h)⟩
  · have hsame (segment : Str) :
        checkSegment "ftp" segment = none ↔ checkSegment "sftp" segment = none := by
      unfold checkSegment
      split_ifs <;> simp
    have hchecked : (configured.splitOn slash).findSome? (checkSegment "ftp") = none ↔
        (configured.splitOn slash).findSome? (checkSegment "sftp") = none := by
      simp only [List.findSome?_eq_none_iff, hsame]
    cases hftp : (configured.splitOn slash).findSome? (checkSegment "ftp") with
    | none => rw [hchecked.mp hftp]
    | some err =>
        cases hsftp : (configured.splitOn slash).findSome? (checkSegment "sftp") with
        | none => exact nomatch hftp.symm.trans (hchecked.mpr hsftp)
        | some err' => exact ⟨fun h ↦ (nomatch h), fun h ↦ (nomatch h)⟩

/-- **Remote names stay beneath the root.**  The two adapters accept the same roots and
make the same of them: a clean absolute name that they leave as it is.  Beneath such a
root a remote name is the root, a slash and the path, what is checked for links is on
the way from the root to it, and temporary files are beside their destinations. -/
theorem remote_names_contained (configured root : Str) :
    (Ftp.validateRoot configured = .ok root ↔ Sftp.validateRoot configured = .ok root) ∧
    (Ftp.validateRoot configured = .ok root → IsCleanRoot root ∧
      (∀ a : Ftp.Adapter, a.root = root →
        IsContained root a.remotePath a.linkCandidates Ftp.temporaryPath) ∧
      ∀ a : Sftp.Adapter, a.root = root →
        IsContained root a.remotePath a.linkCandidates Sftp.temporaryPath) := by
  refine ⟨validateRoot_iff, fun h ↦ ?_⟩
  have hroot := isRoot_of_validateRoot h
  refine ⟨isCleanRoot hroot, ?_, ?_⟩
  · rintro a rfl
    exact isContained hroot
  · rintro a rfl
    exact isContained hroot

theorem remote_names_contained_srv :
    Ftp.validateRoot (.lit "/srv/./data//") = .ok (.lit "/srv/data") ∧
      IsContained (.lit "/srv/data") (Ftp.Adapter.remotePath ⟨.lit "/srv/data", 10⟩)
        (Ftp.Adapter.linkCandidates ⟨.lit "/srv/data", 10⟩) Ftp.temporaryPath :=
  have h : Ftp.validateRoot (.lit "/srv/./data//") = .ok (.lit "/srv/data") := by decide
  ⟨h, ((remote_names_contained (.lit "/srv/./data//") (.lit "/srv/data")).2 h).2.1 ⟨_, 10⟩ rfl⟩

end GoFilesystem
