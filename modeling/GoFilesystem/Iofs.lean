import GoFilesystem.Contracts
import GoFilesystem.Go.Fs

/-!
# The bridge to `io/fs`

`Stat` and `ReadDir` of `iofs.go`, over any provider.  The bridge passes
`context.Background()` to its provider, so the provider never sees a context
that is done.  Every call of the provider has an environment of its own: two
listings need not range over their maps in the same order.
-/

namespace GoFilesystem

open Go

namespace Iofs

/-- The state of the provider, and how often it has been called. -/
structure Session (σ : Type) where
  store : σ
  calls : Nat := 0

abbrev Bridge (σ α : Type) := Call (Nat → Env) (Session σ) α

variable {σ α : Type} {name : Str}

/-- A call of the provider with `context.Background()`. -/
def provider (method : Method σ α) : Bridge σ α := fun envs session ↦
  (method { envs session.calls with ctx := fun _ ↦ none } { store := session.store }).map
    fun (a, frame) ↦ (a, { store := frame.store, calls := session.calls + 1 })

/-- `ioFSInfo`, and `ioFSDirEntry`, which holds one. -/
structure Info where
  metadata : Metadata
  name : Str

/-- `IsDir`. -/
def Info.isDir (i : Info) : Bool := i.metadata.kind = .directory

/-- `ioFSPath`. -/
def ioFSPath (name : Str) : Except Err Path :=
  if !validPath name || name.contains backslash then .error (.sentinel .invalid)
  else if name = PathName.current then .ok .root
  else
    match parsePath name with
    | .error _ => .error (.sentinel .invalid)
    | .ok logicalPath => .ok logicalPath

/-- `ioFSBase`. -/
def ioFSBase (name : Str) : Bridge σ Str :=
  if name = PathName.current then return PathName.current
  else
    match parsePath name with
    | .error _ => Call.panic
    | .ok parsed => return parsed.base

/-- `pathError`. -/
def pathError (operation name : Str) (err : Err) : Err :=
  .wrap "%s %s: %w" [operation, name]
    (if err.is .notFound then .sentinel .notExist
    else if err.is .invalidPath then .sentinel .invalid
    else err)

/-- `metadata`: what is stored at the path, or a directory if the listing of the
path has an entry.  An iterator that has yielded an entry reports no error, and
closing one never fails in this repository. -/
def metadata (b : Backend σ) (logicalPath : Path) : Bridge σ (Metadata × Option Err) :=
  if logicalPath.isRoot then return ({ path := .root, kind := .directory }, none)
  else do
    let (metadata, err) ← provider (b.stat logicalPath)
    match err with
    | none => return (metadata, none)
    | some err =>
      if err.is .notFound then
        let (iterator, listErr) ← provider (b.list logicalPath { limit := 1 })
        match listErr, iterator.entries, iterator.err with
        | some listErr, _, _ => return ({}, some listErr)
        | none, _ :: _, _ => return ({ path := logicalPath, kind := .directory }, none)
        | none, [], some iteratorErr => return ({}, some (.wrap "%w" [] iteratorErr))
        | none, [], none => return ({}, some err)
      else return ({}, some err)

def infoOf (entry : Entry) : Info where
  metadata :=
    { path := entry.path, kind := entry.kind, size := entry.size, modified := entry.modified }
  name := entry.path.base

/-- `directoryEntries`. -/
def directoryEntries (b : Backend σ) (logicalPath : Path) : Bridge σ (Except Err (List Info)) := do
  let (iterator, err) ← provider (b.list logicalPath {})
  match err, iterator.err with
  | some err, _ => return .error err
  | none, some iteratorErr => return .error (.wrap "%w" [] iteratorErr)
  | none, none =>
    return .ok ((iterator.entries.map infoOf).insertionSort fun left right ↦ left.name ≤ right.name)

/-- `Stat`. -/
def stat (b : Backend σ) (name : Str) : Bridge σ (Except Err Info) :=
  match ioFSPath name with
  | .error err => return .error (pathError (.lit "stat") name err)
  | .ok logicalPath => do
    match ← metadata b logicalPath with
    | (_, some err) => return .error (pathError (.lit "stat") name err)
    | (metadata, none) => return .ok { metadata, name := ← ioFSBase name }

/-- `ReadDir`. -/
def readDir (b : Backend σ) (name : Str) : Bridge σ (Except Err (List Info)) :=
  match ioFSPath name with
  | .error err => return .error (pathError (.lit "readdir") name err)
  | .ok logicalPath => do
    match ← metadata b logicalPath with
    | (_, some err) => return .error (pathError (.lit "readdir") name err)
    | (metadata, none) =>
      if metadata.kind ≠ .directory then
        return .error (pathError (.lit "readdir") name (.sentinel .notDirectory))
      else
        match ← directoryEntries b logicalPath with
        | .error err => return .error (pathError (.lit "readdir") name err)
        | .ok entries => return .ok entries

/-- The bridge as `fs.WalkDir` sees it. -/
def fsys (b : Backend σ) : WalkFS (Nat → Env) (Session σ) Info Err where
  stat := stat b
  readDir := readDir b
  name := Info.name
  isDir := Info.isDir

/-! ## Names -/

/-- The name of a directory or file in `io/fs`. -/
def nameOf (p : Path) : Str := if p.isRoot then PathName.current else p.value

theorem nameOf_of_normalForm {p : Path} (h : NormalForm p.value) : nameOf p = p.value := by
  rw [nameOf, if_neg]
  rw [Path.isRoot_iff]
  exact fun hroot ↦ h.ne_nil (congrArg Path.value hroot)

theorem validPath_of_normalForm {value : Str} (h : NormalForm value) :
    validPath value = validString value := by
  have hall : (value.splitOn slash).all (fun element ↦
      !(element == [] || element == PathName.current || element == PathName.parent)) = true := by
    rw [List.all_eq_true]
    intro element helement
    obtain ⟨hempty, hdot, hparent⟩ := h.segments element helement
    simp [PathName.current, PathName.parent, hempty, hdot, hparent]
  rw [validPath, hall, Bool.or_true, Bool.and_true]

/-- The bridge accepts the string of a path exactly when it is valid UTF-8. -/
theorem ioFSPath_of_normalForm {value : Str} (h : NormalForm value)
    (hutf : validString value = true) :
    ioFSPath value = .ok ⟨value, .inr h⟩ := by
  have hbackslash : value.contains backslash = false := by
    rw [List.contains_eq_mem, decide_eq_false_iff_not]
    exact h.noBackslash
  unfold ioFSPath
  rw [validPath_of_normalForm h, hutf, hbackslash, if_neg (by decide), if_neg h.ne_current,
    h.parsePath_eq]

/-- What the bridge accepts is the name of the path it returns. -/
theorem nameOf_of_ioFSPath {p : Path} (h : ioFSPath name = .ok p) : nameOf p = name := by
  unfold ioFSPath at h
  split_ifs at h with hinvalid hcurrent
  · cases h
    rw [hcurrent]
    rfl
  · split at h
    · contradiction
    · rename_i parsed hparse
      cases h
      rw [nameOf_of_normalForm (Path.normalForm (ne_root_of_parsePath hparse))]
      rw [Bool.or_eq_true, not_or, Bool.not_eq_true', Bool.not_eq_false, List.contains_eq_mem,
        decide_eq_true_eq, validPath, Bool.and_eq_true, Bool.or_eq_true, beq_iff_eq,
        List.all_eq_true] at hinvalid
      refine value_of_parsePath hparse ?_ hinvalid.2
      intro segment hsegment
      have hproper := hinvalid.1.2.resolve_left hcurrent segment hsegment
      simpa [ProperSegment, PathName.current, PathName.parent, and_assoc] using hproper

theorem validString_of_ioFSPath {p : Path} (h : ioFSPath name = .ok p) :
    validString name = true := by
  unfold ioFSPath at h
  split_ifs at h with hinvalid
  · rw [Bool.or_eq_true, not_or, Bool.not_eq_true', Bool.not_eq_false, validPath,
      Bool.and_eq_true] at hinvalid
    exact hinvalid.1.1
  · rw [Bool.or_eq_true, not_or, Bool.not_eq_true', Bool.not_eq_false, validPath,
      Bool.and_eq_true] at hinvalid
    exact hinvalid.1.1

/-- The base name of an accepted name does not panic. -/
theorem ioFSBase_nameOf (p : Path) (envs : Nat → Env) (s : Session σ) :
    ioFSBase (nameOf p) envs s = some (if p.isRoot then PathName.current else p.base, s) := by
  by_cases hroot : p.isRoot = true
  · rw [nameOf, if_pos hroot, if_pos hroot, ioFSBase, if_pos rfl]
    rfl
  · have hnormal := Path.normalForm (mt Path.isRoot_iff.mpr hroot)
    rw [nameOf, if_neg hroot, if_neg hroot, ioFSBase, if_neg hnormal.ne_current,
      hnormal.parsePath_eq]
    rfl

/-! ## What `ioFSPath` accepts -/

/-- The names of `io/fs` that are logical paths as they stand. -/
structure BridgeName (name : Str) : Prop where
  valid : validPath name = true
  noBackslash : backslash ∉ name
  noControl : ∀ character ∈ runes name, isControl character = false
  noVolume : ∀ letter rest, name = letter :: colon :: rest → isAsciiLetter letter = false

theorem hasWindowsVolume_eq_false :
    hasWindowsVolume name = false ↔
      ∀ letter rest, name = letter :: colon :: rest → isAsciiLetter letter = false := by
  constructor
  · rintro h letter rest rfl
    simpa [hasWindowsVolume] using h
  · intro h
    match name with
    | [] | [_] => rfl
    | letter :: d :: rest =>
        rw [hasWindowsVolume, Bool.and_eq_false_iff, beq_eq_false_iff_ne]
        by_cases hd : d = colon
        · exact .inr (h letter rest (by rw [hd]))
        · exact .inl hd

theorem hasControlByte_eq_false :
    hasControlByte name = false ↔ ∀ character ∈ runes name, isControl character = false := by
  rw [← any_isControl_runes, List.any_eq_false]
  simp only [Bool.not_eq_true]

/-- `fs.ValidPath` asks for UTF-8 and, except of the current directory, for
proper segments. -/
theorem validPath_iff (hne : name ≠ PathName.current) :
    validPath name = true ↔
      validString name = true ∧ ∀ segment ∈ name.splitOn slash, ProperSegment segment := by
  rw [validPath, Bool.and_eq_true, Bool.or_eq_true, beq_iff_eq, or_iff_right hne, List.all_eq_true]
  simp [ProperSegment, PathName.current, PathName.parent, and_assoc]

/-- The two grammars agree: the names of the bridge are the normal forms of
`ParsePath` that are valid UTF-8. -/
theorem bridgeName_iff (hne : name ≠ PathName.current) :
    BridgeName name ↔ NormalForm name ∧ validString name = true := by
  constructor
  · intro h
    obtain ⟨hutf, hsegments⟩ := (validPath_iff hne).mp h.valid
    exact ⟨⟨hsegments, h.noBackslash, hasControlByte_eq_false.mpr h.noControl,
      hasWindowsVolume_eq_false.mpr h.noVolume⟩, hutf⟩
  · rintro ⟨h, hutf⟩
    exact ⟨(validPath_iff hne).mpr ⟨hutf, h.segments⟩, h.noBackslash,
      hasControlByte_eq_false.mp h.noControl, hasWindowsVolume_eq_false.mp h.noVolume⟩

/-- `ioFSPath` accepts the current directory, as the root, and the names of the
bridge, unchanged. -/
theorem ioFSPath_eq_ok_iff {p : Path} :
    ioFSPath name = .ok p ↔ name = PathName.current ∧ p = .root ∨
      name ≠ PathName.current ∧ BridgeName name ∧ p.value = name := by
  constructor
  · intro h
    have hname := nameOf_of_ioFSPath h
    by_cases hroot : p = .root
    · rw [nameOf, if_pos (Path.isRoot_iff.mpr hroot)] at hname
      exact .inl ⟨hname.symm, hroot⟩
    · have hnormal := Path.normalForm hroot
      rw [nameOf_of_normalForm hnormal] at hname
      rw [hname] at hnormal
      have hne := hnormal.ne_current
      exact .inr ⟨hne, (bridgeName_iff hne).mpr ⟨hnormal, validString_of_ioFSPath h⟩, hname⟩
  · rintro (⟨rfl, rfl⟩ | ⟨hne, hbridge, rfl⟩)
    · rfl
    · obtain ⟨hnormal, hutf⟩ := (bridgeName_iff hne).mp hbridge
      exact ioFSPath_of_normalForm hnormal hutf

/-- `ioFSPath` is the identity on what it accepts: it accepts exactly the current
directory and the names of the bridge, whose path is the name itself; `ParsePath`
returns such a name as it stands, so that `ioFSBase` does not panic; and the
string of every path other than the root comes back as that path if it is valid
UTF-8. -/
theorem ioFSPath_identity :
    (∀ name p, ioFSPath name = .ok p ↔ name = PathName.current ∧ p = .root ∨
      name ≠ PathName.current ∧ BridgeName name ∧ p.value = name) ∧
    (∀ name p, ioFSPath name = .ok p → (name = PathName.current ∨ normalizePath name = .ok name) ∧
      ∀ (envs : Nat → Env) (s : Session σ), ∃ base, ioFSBase name envs s = some (base, s)) ∧
    ∀ p : Path, p ≠ .root → validString p.value = true → ioFSPath p.value = .ok p := by
  refine ⟨fun name p ↦ ioFSPath_eq_ok_iff, fun name p h ↦ ⟨?_, fun envs s ↦ ?_⟩,
    fun p hroot hutf ↦ ?_⟩
  · rcases ioFSPath_eq_ok_iff.mp h with ⟨hcurrent, -⟩ | ⟨hne, hbridge, -⟩
    · exact .inl hcurrent
    · exact .inr ((bridgeName_iff hne).mp hbridge).1.normalizePath_eq
  · obtain rfl := nameOf_of_ioFSPath h
    exact ⟨_, ioFSBase_nameOf p envs s⟩
  · exact ioFSPath_of_normalForm (Path.normalForm hroot) hutf

end Iofs

end GoFilesystem
