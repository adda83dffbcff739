import GoFilesystem.Go.Elements
import GoFilesystem.Posix.FileTree
import GoFilesystem.Remote.Session
import GoFilesystem.Segments

/-!
# Names on a server

The two adapters for servers make remote names in the same way: they check a root
directory once, join it with logical paths, and put temporary files beside their
destinations.  Here it is said what these names stand for: the names from the root of
the server to a file.
-/

namespace GoFilesystem.Remote

open Go Posix PathName

theorem plain_of_isName {name : Str} (h : IsName name) : Plain name := by
  intro hparent
  rw [List.splitOn_eq_singleton h.noSlash, List.mem_singleton] at hparent
  exact h.ne_parent hparent.symm

/-! ## The root of an adapter -/

/-- What the loop of `validateRoot` returns for one segment. -/
def checkSegment (package : String) (segment : Str) : Option Err :=
  if segment = parent then some (.new (package ++ ": root must not contain parent segments") [])
  else if (runes segment).any isControl then
    some (.new (package ++ ": root contains a control character") [])
  else none

/-- `validateRoot` of a package. -/
def validateRoot (package : String) (root : Str) : Except Err Str :=
  if root = [] then .ok [slash]
  else if root.head? ≠ some slash ∨ backslash ∈ root then
    .error (.new (package ++ ": root must be an absolute POSIX path") [])
  else
    match (root.splitOn slash).findSome? (checkSegment package) with
    | some err => .error err
    | none => .ok (clean root)

/-- What `validateRoot` returns. -/
structure IsRoot (root : Str) : Prop where
  eq_intercalate : root = slash :: [slash].intercalate (elements root)
  isName : ∀ name ∈ elements root, IsName name
  noBackslash : ∀ name ∈ elements root, backslash ∉ name
  noControl : ∀ name ∈ elements root, hasControlByte name = false

theorem isRoot_slash : IsRoot [slash] := ⟨by decide, by decide, by decide, by decide⟩

theorem isRoot_of_validateRoot {package : String} {root valid : Str}
    (h : validateRoot package root = .ok valid) : IsRoot valid := by
  unfold validateRoot at h
  split_ifs at h with hnil habsolute
  · rw [← Except.ok.inj h]
    exact isRoot_slash
  · obtain ⟨hrooted, hbackslash⟩ := not_or.mp habsolute
    rw [not_not] at hrooted
    split at h
    · contradiction
    · rename_i hchecked
      have hsegment : ∀ segment ∈ root.splitOn slash,
          segment ≠ parent ∧ hasControlByte segment = false := by
        intro segment hsegment
        have hcheck := List.findSome?_eq_none_iff.mp hchecked segment hsegment
        unfold checkSegment at hcheck
        split_ifs at hcheck with hparent hcontrol
        rw [any_isControl_runes] at hcontrol
        exact ⟨hparent, Bool.not_eq_true _ ▸ hcontrol⟩
      have hplain : Plain root := fun hparent ↦ (hsegment parent hparent).1 rfl
      have helements : elements valid = elements root := by
        rw [← Except.ok.inj h, elements_clean hplain]
      refine ⟨?_, fun name hname ↦ ?_, fun name hname ↦ ?_, fun name hname ↦ ?_⟩
      · rw [helements, ← Except.ok.inj h, clean_of_rooted hplain hrooted]
      · rw [helements] at hname
        obtain ⟨hmem, hne, hdot⟩ := mem_elements.mp hname
        obtain ⟨hparent, hcontrol⟩ := hsegment name hmem
        refine ⟨hne, hdot, hparent, notMem_of_mem_elements hname, fun hnul ↦ ?_⟩
        exact nomatch (hasControlByte_of_mem rfl hnul).symm.trans hcontrol
      · rw [helements] at hname
        exact fun hmem ↦ hbackslash (mem_of_mem_splitOn (mem_elements.mp hname).1 hmem)
      · exact (hsegment name (mem_elements.mp (helements ▸ hname)).1).2

theorem IsRoot.plain {root : Str} (h : IsRoot root) : Plain root := by
  rw [h.eq_intercalate]
  refine (plain_append_slash (a := [])).mpr ⟨plain_nil, plain_intercalate fun name hname ↦ ?_⟩
  exact plain_of_isName (h.isName name hname)

/-- The segments of a root, as `validateRoot` splits it. -/
theorem IsRoot.mem_splitOn {root segment : Str} (h : IsRoot root)
    (hsegment : segment ∈ root.splitOn slash) : segment = [] ∨ segment ∈ elements root := by
  have hsplit : (slash :: [slash].intercalate (elements root)).splitOn slash =
      [] :: ([slash].intercalate (elements root)).splitOn slash :=
    List.splitOn_append_cons_self [] _
  rw [h.eq_intercalate, hsplit, List.mem_cons] at hsegment
  by_cases hnames : elements root = []
  · rw [hnames] at hsegment
    exact .inl (by simpa using hsegment)
  · rw [List.splitOn_intercalate slash (fun _ ↦ notMem_of_mem_elements) hnames] at hsegment
    exact hsegment

/-- What `validateRoot` returns stays as it is. -/
theorem IsRoot.validateRoot_eq {root : Str} (h : IsRoot root) (package : String) :
    validateRoot package root = .ok root := by
  have hrooted : root.head? = some slash := by
    rw [h.eq_intercalate]
    rfl
  have hnil : root ≠ [] := by
    rintro rfl
    exact nomatch hrooted
  have hbackslash : backslash ∉ root := by
    intro hmem
    rw [h.eq_intercalate, List.mem_cons] at hmem
    rcases mem_intercalate (hmem.resolve_left (by decide)) with heq | ⟨name, hname, hmem⟩
    · exact nomatch heq
    · exact h.noBackslash name hname hmem
  have hchecked : (root.splitOn slash).findSome? (checkSegment package) = none := by
    refine List.findSome?_eq_none_iff.mpr fun segment hsegment ↦ ?_
    unfold checkSegment
    rw [any_isControl_runes]
    rcases h.mem_splitOn hsegment with rfl | hname
    · rfl
    · have hparent : segment ≠ parent := (h.isName segment hname).ne_parent
      rw [if_neg hparent, h.noControl segment hname]
      rfl
  unfold validateRoot
  rw [if_neg hnil, if_neg (by simp [hrooted, hbackslash]), hchecked]
  exact congrArg Except.ok ((clean_of_rooted h.plain hrooted).trans h.eq_intercalate.symm)

/-! ## The names of paths -/

/-- Where the object of a path is. -/
def location (root : Str) (path : Path) : Location := elements root ++ path.segments

theorem isName_of_mem_segments {path : Path} {name : Str} (h : name ∈ path.segments) :
    IsName name ∧ backslash ∉ name := by
  unfold Path.segments at h
  split at h
  · exact absurd h List.not_mem_nil
  · rename_i hroot
    have hform := path.normalForm (Path.isRoot_eq_false_iff.mp (Bool.not_eq_true _ ▸ hroot))
    obtain ⟨hne, hdot, hparent⟩ := hform.segments name h
    refine ⟨⟨hne, hdot, hparent, notMem_of_mem_splitOn h, fun hnul ↦ ?_⟩, fun hmem ↦ ?_⟩
    · have hcontrol := hasControlByte_of_mem rfl (mem_of_mem_splitOn h hnul)
      exact nomatch hcontrol.symm.trans hform.noControl
    · exact hform.noBackslash (mem_of_mem_splitOn h hmem)

theorem elements_value (path : Path) : elements path.value = path.segments := by
  unfold Path.segments
  split
  · rename_i hroot
    rw [(beq_iff_eq.mp hroot : path.value = [])]
    rfl
  · rename_i hroot
    have hform := path.normalForm (Path.isRoot_eq_false_iff.mp (Bool.not_eq_true _ ▸ hroot))
    unfold elements
    rw [List.filter_eq_self]
    intro name hname
    have hproper := hform.segments name hname
    exact decide_eq_true ⟨hproper.1, hproper.2.1⟩

theorem plain_value (path : Path) : Plain path.value := by
  by_cases hroot : path = .root
  · rw [hroot]
    exact plain_nil
  · exact fun hparent ↦ ((path.normalForm hroot).segments _ hparent).2.2 rfl

section Root

variable {root : Str} (h : IsRoot root) (path : Path)

include h in
theorem remoteName_eq :
    remoteName root path = slash :: [slash].intercalate (location root path) := by
  unfold remoteName location
  split
  · rename_i hroot
    rw [Path.segments, if_pos hroot, List.append_nil]
    exact h.eq_intercalate
  · have hrooted : root.head? = some slash := by
      rw [h.eq_intercalate]
      rfl
    rw [join_of_rooted ?_ hrooted]
    · simp [elements_value]
    · simp [h.plain, plain_value]

include h in
theorem isName_of_mem_location {name : Str} (hname : name ∈ location root path) :
    IsName name ∧ backslash ∉ name := by
  rcases List.mem_append.mp hname with hname | hname
  · exact ⟨h.isName name hname, h.noBackslash name hname⟩
  · exact isName_of_mem_segments hname

include h in
theorem elements_remoteName : elements (remoteName root path) = location root path := by
  rw [remoteName_eq h, elements_cons_slash]
  refine elements_intercalate fun name hname ↦ ?_
  obtain ⟨hisName, -⟩ := isName_of_mem_location h path hname
  exact ⟨hisName.noSlash, hisName.ne_nil, hisName.ne_dot⟩

variable {path} in
include h in
/-- The directory of a remote name. -/
theorem dir_remoteName (hpath : path ≠ .root) :
    dir (remoteName root path) = slash :: [slash].intercalate (location root path).dropLast := by
  have hne : location root path ≠ [] := by
    rw [location, Path.segments, Path.isRoot_eq_false_iff.mpr hpath]
    exact List.append_ne_nil_of_right_ne_nil _ (List.splitOn_ne_nil _ _)
  rw [remoteName_eq h, ← List.dropLast_append_getLast hne, List.dropLast_concat]
  refine dir_of_elements fun name hname ↦ ?_
  rw [List.dropLast_append_getLast] at hname
  obtain ⟨hisName, -⟩ := isName_of_mem_location h path hname
  exact ⟨hisName.noSlash, hisName.ne_nil, hisName.ne_dot, hisName.ne_parent⟩

variable {path} in
include h in
theorem elements_dir_remoteName (hpath : path ≠ .root) :
    elements (dir (remoteName root path)) = (location root path).dropLast := by
  rw [dir_remoteName h hpath, elements_cons_slash]
  refine elements_intercalate fun name hname ↦ ?_
  obtain ⟨hisName, -⟩ := isName_of_mem_location h path (List.mem_of_mem_dropLast hname)
  exact ⟨hisName.noSlash, hisName.ne_nil, hisName.ne_dot⟩

end Root

/-! ## The names that are checked for links -/

theorem flatMap_elements {names : List Str} (h : ∀ name ∈ names, IsName name) :
    names.flatMap elements = names := by
  induction names with
  | nil => rfl
  | cons name names ih =>
      have hname := h name List.mem_cons_self
      rw [List.flatMap_cons, elements_eq_singleton hname.noSlash hname.ne_nil hname.ne_dot,
        ih fun x hx ↦ h x (List.mem_cons_of_mem _ hx)]
      rfl

/-- A name beneath a root that is joined from names. -/
theorem join_join {root : Str} (hroot : IsRoot root) {names : List Str}
    (h : ∀ name ∈ names, IsName name) :
    join [root, join names] = slash :: [slash].intercalate (elements root ++ names) := by
  have hrooted : root.head? = some slash := by
    rw [hroot.eq_intercalate]
    rfl
  have hplain : ∀ name ∈ names, Plain name := fun name hname ↦ plain_of_isName (h name hname)
  rw [join_of_rooted (by simp [hroot.plain, plain_join hplain]) hrooted]
  simp [elements_join hplain, flatMap_elements h]

/-- What is checked are the locations on the way to a path. -/
theorem exists_of_mem_linkCandidates {root : Str} (hroot : IsRoot root) {path : Path}
    (hpath : path ≠ .root) {includeFinal : Bool} {name : Str}
    (h : name ∈ linkCandidates root path includeFinal) : ∃ l l', l ≠ [] ∧
      path.segments = l ++ l' ∧ name = slash :: [slash].intercalate (elements root ++ l) := by
  have hsegments : path.value.splitOn slash = path.segments := by
    rw [Path.segments, Path.isRoot_eq_false_iff.mpr hpath]
    rfl
  unfold linkCandidates at h
  rw [hsegments] at h
  obtain ⟨index, -, rfl⟩ := List.mem_map.mp h
  refine ⟨path.segments.take (index + 1), path.segments.drop (index + 1), ?_,
    (List.take_append_drop ..).symm, join_join hroot ?_⟩
  · rw [← hsegments]
    intro hnil
    exact (List.take_eq_nil_iff.mp hnil).elim (Nat.succ_ne_zero _) (List.splitOn_ne_nil _ _)
  · exact fun name hname ↦ (isName_of_mem_segments (List.mem_of_mem_take hname)).1

/-! ## Temporary names -/

theorem notMem_temporaryName {c : UInt8} (hc : c ∉ Str.lit ".filesystem-0123456789abcdef.tmp")
    (random : Str) : c ∉ temporaryName random := by
  have hdigit : ∀ n < 16, hexDigit n ∈ Str.lit ".filesystem-0123456789abcdef.tmp" := by
    decide +kernel
  have hliteral : ∀ c ∈ Str.lit ".filesystem-" ++ Str.lit ".tmp",
      c ∈ Str.lit ".filesystem-0123456789abcdef.tmp" := by decide +kernel
  intro hmem
  unfold temporaryName hexEncode at hmem
  rcases List.mem_append.mp hmem with hmem | hmem
  · rcases List.mem_append.mp hmem with hmem | hmem
    · exact hc (hliteral c (List.mem_append_left _ hmem))
    · obtain ⟨b, -, hb⟩ := List.mem_flatMap.mp hmem
      have hlt : b.toNat < 256 := b.toNat_lt
      rcases List.mem_cons.mp hb with rfl | hb
      · exact hc (hdigit _ (by omega))
      · obtain rfl := List.mem_singleton.mp hb
        exact hc (hdigit _ (by omega))
  · exact hc (hliteral c (List.mem_append_right _ hmem))

theorem isName_temporaryName (random : Str) : IsName (temporaryName random) where
  ne_nil := nofun
  ne_dot := nofun
  ne_parent := nofun
  noSlash := notMem_temporaryName (by decide) random
  noNul := notMem_temporaryName (by decide) random

end GoFilesystem.Remote
