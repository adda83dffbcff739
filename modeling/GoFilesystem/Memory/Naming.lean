import GoFilesystem.Iofs.Directory
import GoFilesystem.Memory.Keys
import GoFilesystem.Memory.Traversal
import GoFilesystem.Segments

/-!
# What lies beneath a directory of the in-memory adapter

`List` filters the keys by a string prefix and cuts what follows it at the first
slash.  Read on segments, it keeps the keys that continue the segments of the
directory, and without recursion it keeps one segment of what follows:

| listing | paths |
| --- | --- |
| recursive | the keys `directory ++ child :: rest` |
| not recursive | `directory ++ [child]` for these keys |

The bridge to `io/fs` finds its directories with such a listing.  A name denotes
an object, a directory or nothing (`meaning`), and `Open`, `Stat` and `ReadDir`
all act on what it denotes.
-/

namespace GoFilesystem.Memory

open Go Iofs

/-! ## Beneath a directory -/

section Beneath

variable {directory : Path} {name : Str}

theorem segmentsOf_directoryPrefix_append (directory : Path) (rest : Str) :
    segmentsOf (directoryPrefix directory ++ rest) = directory.segments ++ segmentsOf rest := by
  rw [directory.segments_eq]
  rcases directoryPrefix_cases directory with ⟨rfl, hpre⟩ | ⟨-, hpre⟩
  · rw [hpre]
    rfl
  · rw [hpre, List.append_assoc, List.singleton_append, segmentsOf_append_slash]

/-- One segment below the directory. -/
theorem segmentsOf_child {child : Str} (h : NormalForm (directoryPrefix directory ++ child))
    (hchild : slash ∉ child) :
    segmentsOf (directoryPrefix directory ++ child) = directory.segments ++ [child] := by
  have hmem : child ∈ (directoryPrefix directory ++ child).splitOn slash := by
    rcases directoryPrefix_cases directory with ⟨-, hpre⟩ | ⟨-, hpre⟩
    · rw [hpre, List.nil_append, List.splitOn_eq_singleton hchild]
      exact List.mem_singleton_self child
    · rw [hpre, List.append_assoc, List.singleton_append, List.splitOn_append_cons_self,
        List.splitOn_eq_singleton hchild]
      exact List.mem_append_right _ (List.mem_singleton_self child)
  have hbackslash : backslash ∉ child := fun hmem ↦
    h.noBackslash (List.mem_append_right _ hmem)
  rw [segmentsOf_directoryPrefix_append,
    (h.segments child hmem).segmentsOf_eq hchild hbackslash]

/-- The name that a listing without recursion records for a key. -/
theorem segmentsOf_listedName (h : NormalForm name) (hpre : directoryPrefix directory <+: name) :
    ∃ child rest, segmentsOf name = directory.segments ++ child :: rest ∧
      segmentsOf (listedName (directoryPrefix directory) false name) =
        directory.segments ++ [child] := by
  rcases child_or_nested hpre with ⟨child, hchild, rfl⟩ | ⟨child, rest, hchild, rfl⟩
  · rw [listedName_child hchild]
    have hsegments := segmentsOf_child h hchild
    exact ⟨child, [], hsegments, hsegments⟩
  · have hsegments := segmentsOf_child h.left hchild
    refine ⟨child, segmentsOf rest, ?_, ?_⟩
    · rw [segmentsOf_append_slash, hsegments, List.append_assoc, List.singleton_append]
    · rw [listedName_nested hchild, hsegments]

/-- The prefix that `List` filters by is a proper prefix of segments. -/
theorem directoryPrefix_isPrefix_iff (h : NormalForm name) :
    directoryPrefix directory <+: name ↔
      ∃ child rest, segmentsOf name = directory.segments ++ child :: rest := by
  constructor
  · intro hpre
    obtain ⟨child, rest, hsegments, -⟩ := segmentsOf_listedName h hpre
    exact ⟨child, rest, hsegments⟩
  · rintro ⟨child, rest, hsegments⟩
    rcases directoryPrefix_cases directory with ⟨-, hpre⟩ | ⟨hroot, hpre⟩
    · rw [hpre]
      exact List.nil_prefix
    · have hname : (⟨name, .inr h⟩ : Path) ≠ .root := fun hname ↦
        h.ne_nil (congrArg Path.value hname)
      rw [hpre]
      exact (Path.isBeneath_iff hroot hname).mp
        ⟨_, List.cons_ne_nil child rest, (Path.segments_eq _).trans hsegments⟩

end Beneath

/-! ## The paths of a listing -/

/-- The paths that `List` returns when it is given no limit. -/
def listedPaths (directory : Path) (recursive : Bool) (objects : Objects) : List Path :=
  ((listedNames (directoryPrefix directory) recursive objects).sort (· ≤ ·)).filterMap
    fun name ↦ (parsePath name).toOption

section Paths

variable {directory : Path} {recursive : Bool} {objects : Objects} (hkeys : KeysValid objects)
include hkeys

theorem normalForm_of_mem_listedNames {key : Str}
    (h : key ∈ listedNames (directoryPrefix directory) recursive objects) : NormalForm key := by
  obtain ⟨name, hname, rfl⟩ := Finset.mem_image.mp h
  obtain ⟨hmem, hpre⟩ := Finset.mem_filter.mp hname
  obtain ⟨stored, hl⟩ := Finmap.mem_iff.mp (Finmap.mem_keys.mp hmem)
  exact normalForm_listedName (hkeys name stored hl) hpre recursive

/-- The strings of the paths are the names of the listing. -/
theorem map_value_listedPaths :
    (listedPaths directory recursive objects).map Path.value =
      (listedNames (directoryPrefix directory) recursive objects).sort (· ≤ ·) := by
  unfold listedPaths
  rw [List.map_filterMap]
  conv_rhs => rw [← List.filterMap_some (l := (listedNames _ _ _).sort _)]
  refine List.filterMap_congr fun name hname ↦ ?_
  rw [(normalForm_of_mem_listedNames hkeys ((Finset.mem_sort _).mp hname)).parsePath_eq]
  rfl

/-- The paths of a listing do not depend on the order of the objects. -/
theorem map_path_sortedEntries (order : IterOrder Str) (limit : Int) :
    (sortedEntries limit (listing order (directoryPrefix directory) recursive objects)).map
      Entry.path = shown limit (listedPaths directory recursive objects) := by
  refine List.map_injective_iff.mpr (fun _ _ ↦ Path.ext) ?_
  rw [← shown_map, map_value_listedPaths hkeys, List.map_map, sortedEntries,
    keys_listing order hkeys, List.map_filterMap]
  conv_rhs => rw [← List.filterMap_some (l := shown limit _)]
  refine List.filterMap_congr fun name hname ↦ ?_
  have hlisted := (Finset.mem_sort (· ≤ ·)).mp (mem_of_mem_shown hname)
  rw [← keys_listing order hkeys, Finmap.mem_keys] at hlisted
  obtain ⟨entry, hentry⟩ := Finmap.mem_iff.mp hlisted
  rw [hentry, Option.map_some, Function.comp_apply, (file_or_directory hkeys hentry).1]

theorem mem_listedPaths {path : Path} :
    path ∈ listedPaths directory recursive objects ↔
      path.value ∈ listedNames (directoryPrefix directory) recursive objects := by
  rw [← Finset.mem_sort (· ≤ ·), ← map_value_listedPaths hkeys, List.mem_map]
  constructor
  · intro h
    exact ⟨path, h, rfl⟩
  · rintro ⟨path', h, heq⟩
    rwa [← Path.ext heq]

/-- The paths of a recursive listing are the keys beneath the directory. -/
theorem mem_listedPaths_recursive {path : Path} :
    path ∈ listedPaths directory true objects ↔ path.value ∈ objects ∧
      ∃ child rest, path.segments = directory.segments ++ child :: rest := by
  have himage : listedName (directoryPrefix directory) true = id := rfl
  rw [mem_listedPaths hkeys, listedNames, himage, Finset.image_id, Finset.mem_filter,
    Finmap.mem_keys, path.segments_eq]
  refine and_congr_right fun hmem ↦ ?_
  obtain ⟨stored, hl⟩ := Finmap.mem_iff.mp hmem
  exact directoryPrefix_isPrefix_iff (hkeys _ _ hl)

theorem ne_root_of_mem_listedPaths {path : Path}
    (h : path ∈ listedPaths directory recursive objects) : path ≠ .root := by
  rintro rfl
  exact (normalForm_of_mem_listedNames hkeys ((mem_listedPaths hkeys).mp h)).ne_nil rfl

/-- A key beneath the directory has a path in the listing. -/
theorem exists_listedPath {name child : Str} {rest : List Str} (hmem : name ∈ objects)
    (h : segmentsOf name = directory.segments ++ child :: rest) :
    ∃ path ∈ listedPaths directory false objects,
      path.segments = directory.segments ++ [child] := by
  obtain ⟨stored, hl⟩ := Finmap.mem_iff.mp hmem
  have hnormal := hkeys _ _ hl
  have hpre := (directoryPrefix_isPrefix_iff hnormal).mpr ⟨child, rest, h⟩
  obtain ⟨child', rest', hsegments, hlisted⟩ := segmentsOf_listedName hnormal hpre
  rw [h] at hsegments
  obtain ⟨rfl, -⟩ := List.cons.inj (List.append_cancel_left hsegments)
  refine ⟨⟨_, .inr (normalForm_listedName hnormal hpre false)⟩, ?_, ?_⟩
  · rw [mem_listedPaths hkeys]
    exact Finset.mem_image_of_mem _ (Finset.mem_filter.mpr ⟨Finmap.mem_keys.mpr hmem, hpre⟩)
  · rw [Path.segments_eq]
    exact hlisted

/-- The paths of a listing without recursion are the children of the directory. -/
theorem mem_listedPaths_children {path : Path} :
    path ∈ listedPaths directory false objects ↔ ∃ name ∈ objects, ∃ child rest,
      segmentsOf name = directory.segments ++ child :: rest ∧
        path.segments = directory.segments ++ [child] := by
  constructor
  · intro h
    obtain ⟨name, hname, heq⟩ := Finset.mem_image.mp ((mem_listedPaths hkeys).mp h)
    obtain ⟨hmem, hpre⟩ := Finset.mem_filter.mp hname
    obtain ⟨stored, hl⟩ := Finmap.mem_iff.mp (Finmap.mem_keys.mp hmem)
    obtain ⟨child, rest, hsegments, hlisted⟩ := segmentsOf_listedName (hkeys _ _ hl) hpre
    rw [heq, ← path.segments_eq] at hlisted
    exact ⟨name, Finmap.mem_keys.mp hmem, child, rest, hsegments, hlisted⟩
  · rintro ⟨name, hmem, child, rest, hsegments, hpath⟩
    obtain ⟨path', hmem', hpath'⟩ := exists_listedPath hkeys hmem hsegments
    have hroot : path ≠ .root := by
      rintro rfl
      exact List.append_ne_nil_of_right_ne_nil _ (List.cons_ne_nil child []) hpath.symm
    rwa [← Path.eq_of_segments (ne_root_of_mem_listedPaths hkeys hmem') hroot
      (hpath'.trans hpath.symm)]

/-- The paths of a listing are strictly increasing. -/
theorem pairwise_listedPaths :
    ((listedPaths directory recursive objects).map Path.value).Pairwise (· < ·) := by
  rw [map_value_listedPaths hkeys]
  exact (Finset.sortedLT_sort _).pairwise

end Paths

/-- **A listing is exact.**  The paths of a listing without a limit are in strictly
increasing order: with recursion the keys strictly beneath the directory, without
it the children of the directory that are such a key or have one beneath them.  A
limit cuts this list, and the entries of a recursive listing are the objects. -/
theorem list_exact {objects : Objects} (hkeys : KeysValid objects) (directory : Path) :
    ∃ paths : Bool → List Path,
      (∀ recursive, ((paths recursive).map Path.value).Pairwise (· < ·)) ∧
      (∀ path, path ∈ paths true ↔ path.value ∈ objects ∧
        ∃ child rest, path.segments = directory.segments ++ child :: rest) ∧
      (∀ path, path ∈ paths false ↔ ∃ name ∈ objects, ∃ child rest,
        segmentsOf name = directory.segments ++ child :: rest ∧
          path.segments = directory.segments ++ [child]) ∧
      ∀ recursive limit env polls events, 0 ≤ limit → env.ctx polls = none →
        ∃ entries, list directory { recursive, limit } env ⟨objects, polls, events⟩ =
            some (({ entries }, none), ⟨objects, polls + 1, events⟩) ∧
          entries.map Entry.path =
            (if limit = 0 then paths recursive else (paths recursive).take limit.toNat) ∧
          (recursive = true → ∀ entry ∈ entries, ∃ stored,
            objects.lookup entry.path.value = some stored ∧ entry.kind = .file ∧
              entry.size = stored.content.length ∧ entry.modified = stored.modified) := by
  refine ⟨fun recursive ↦ listedPaths directory recursive objects,
    fun _ ↦ pairwise_listedPaths hkeys, fun _ ↦ mem_listedPaths_recursive hkeys,
    fun _ ↦ mem_listedPaths_children hkeys, ?_⟩
  intro recursive limit env polls events hlimit hctx
  refine ⟨_, list_eq hkeys hctx hlimit, map_path_sortedEntries hkeys _ _, ?_⟩
  rintro rfl entry hentry
  obtain ⟨name, -, hl⟩ := (mem_sortedEntries hkeys).mp hentry
  obtain ⟨rfl, ⟨stored, hstored, heq⟩ | ⟨hfalse, -⟩⟩ := file_or_directory hkeys hl
  · refine ⟨stored, hstored, ?_⟩
    rw [heq]
    exact ⟨rfl, rfl, rfl⟩
  · contradiction

/-- An object that is also a directory: beneath it is the other object only. -/
theorem list_exact_at :
    let directory : Path := ⟨.lit "a", .inr (by decide)⟩
    let beneath : Path := ⟨.lit "a/b", .inr (by decide)⟩
    ∃ entries s, list directory { recursive := true }
        (visiting (KeyOrder.increasing Str).toIterOrder) ⟨objectAndDirectory, 0, []⟩ =
          some (({ entries }, none), s) ∧
      beneath ∈ entries.map Entry.path ∧ directory ∉ entries.map Entry.path := by
  intro directory beneath
  obtain ⟨paths, -, hpaths, -, hlist⟩ := list_exact keysValid_objectAndDirectory directory
  obtain ⟨entries, heq, hentries, -⟩ := hlist true 0
    (visiting (KeyOrder.increasing Str).toIterOrder) 0 [] le_rfl rfl
  refine ⟨entries, _, heq, ?_, ?_⟩
  · rw [hentries, if_pos rfl, hpaths]
    exact ⟨by decide, .lit "b", [], by decide⟩
  · rw [hentries, if_pos rfl, hpaths]
    rintro ⟨-, child, rest, hsegments⟩
    have hlength := congrArg List.length hsegments
    rw [List.length_append, List.length_cons] at hlength
    omega

/-! ## What a name denotes -/

/-- What a name of `io/fs` denotes. -/
inductive Meaning where
  | file (stored : Object)
  | directory
  | missing

/-- A key is a file.  What is not a key is a directory if it is the root or has a
key beneath it. -/
def meaning (objects : Objects) (name : Str) : Meaning :=
  if name = PathName.current then .directory
  else
    match objects.lookup name with
    | some stored => .file stored
    | none =>
      if ∃ key ∈ objects.keys, name ++ [slash] <+: key then .directory else .missing

section Meaning

variable (hashes : Hashes) (envs : Nat → Env) (calls : Nat) {objects : Objects} {path : Path}
  {stored : Object} (hkeys : KeysValid objects)
include hkeys

/-- `metadata` of an object. -/
theorem metadata_file (h : objects.lookup path.value = some stored) :
    metadata (backend hashes) path envs ⟨objects, calls⟩ =
      some ((metadataFor path stored, none), ⟨objects, calls + 1⟩) := by
  unfold metadata
  rw [if_neg (mt Path.isRoot_iff.mp (KeysValid.ne_root hkeys h)), Call.bind_apply, provider_stat,
    Option.bind_some, h]
  rfl

omit hkeys in
/-- What the three methods find at the path of a name. -/
theorem meaning_cases (objects : Objects) (path : Path) :
    (∃ stored, meaning objects (nameOf path) = .file stored ∧
      objects.lookup path.value = some stored) ∨
    (meaning objects (nameOf path) = .directory ∧ Denotes objects path .directory) ∨
    (meaning objects (nameOf path) = .missing ∧ path ≠ .root ∧ path.value ∉ objects ∧
      ¬∃ name ∈ objects, directoryPrefix path <+: name) := by
  unfold meaning
  by_cases hroot : path = .root
  · refine .inr (.inl ⟨?_, .inl hroot⟩)
    rw [hroot]
    rfl
  · have hnormal := path.normalForm hroot
    rw [nameOf_of_normalForm hnormal, if_neg hnormal.ne_current]
    cases hl : objects.lookup path.value with
    | some stored => exact .inl ⟨stored, rfl, rfl⟩
    | none =>
        have hmissing := Finmap.lookup_eq_none.mp hl
        have hprefix : directoryPrefix path = path.value ++ [slash] := if_pos hnormal.ne_nil
        have hkeys : (∃ key ∈ objects.keys, path.value ++ [slash] <+: key) ↔
            ∃ name ∈ objects, directoryPrefix path <+: name := by
          simp only [Finmap.mem_keys, hprefix]
        by_cases hbeneath : ∃ name ∈ objects, directoryPrefix path <+: name
        · exact .inr (.inl ⟨if_pos (hkeys.mpr hbeneath), .inr ⟨hmissing, hbeneath⟩⟩)
        · exact .inr (.inr ⟨if_neg (mt hkeys.mp hbeneath), hroot, hmissing, hbeneath⟩)

/-- The entries of a directory are sorted by name, and their names are the first
segments beneath it. -/
theorem directoryEntries_spec (path : Path) :
    ∃ infos, directoryEntries (backend hashes) path envs ⟨objects, calls⟩ =
        some (.ok infos, ⟨objects, calls + 1⟩) ∧
      (infos.map Info.name).Pairwise (· < ·) ∧
      ∀ child, child ∈ infos.map Info.name ↔ ∃ key ∈ objects, ∃ rest,
        segmentsOf key = path.segments ++ child :: rest := by
  let order := (envs calls).objectsOrder
  let entries := sortedEntries 0 (listing order (directoryPrefix path) false objects)
  have hpaths : entries.map Entry.path = listedPaths path false objects :=
    map_path_sortedEntries hkeys order 0
  have hbase : ∀ p ∈ listedPaths path false objects, p.segments = path.segments ++ [p.base] := by
    intro p hp
    obtain ⟨-, -, child, -, -, hsegments⟩ := (mem_listedPaths_children hkeys).mp hp
    have hlast :=
      (Path.segments_dir_base (ne_root_of_mem_listedPaths hkeys hp)).symm.trans hsegments
    obtain ⟨-, hchild⟩ := List.append_inj' hlast rfl
    rw [hsegments, hchild]
  have hnames : (entries.map infoOf).map Info.name =
      (listedPaths path false objects).map Path.base := by
    rw [← hpaths, List.map_map, List.map_map]
    rfl
  have hperm := (List.perm_insertionSort (fun left right : Info ↦ left.name ≤ right.name)
    (entries.map infoOf)).map Info.name
  refine ⟨(entries.map infoOf).insertionSort fun left right ↦ left.name ≤ right.name, ?_, ?_, ?_⟩
  · unfold directoryEntries
    rw [Call.bind_apply, provider_list _ _ _ hkeys le_rfl, Option.bind_some]
    rfl
  · -- the names are sorted, and no two entries have the same name
    have hnodup : ((listedPaths path false objects).map Path.base).Nodup := by
      refine List.Nodup.map_on ?_ (.of_map _ ((pairwise_listedPaths hkeys).imp fun h ↦ h.ne))
      intro p hp q hq heq
      refine Path.eq_of_segments (ne_root_of_mem_listedPaths hkeys hp)
        (ne_root_of_mem_listedPaths hkeys hq) ?_
      rw [hbase p hp, hbase q hq, heq]
    rw [hnames] at hperm
    have hsorted := List.pairwise_map.mpr (List.pairwise_insertionSort
      (fun left right : Info ↦ left.name ≤ right.name) (entries.map infoOf))
    exact (hsorted.and (hperm.nodup_iff.mpr hnodup)).imp fun h ↦ lt_of_le_of_ne h.1 h.2
  · intro child
    rw [hperm.mem_iff, hnames, List.mem_map]
    constructor
    · rintro ⟨p, hp, rfl⟩
      obtain ⟨key, hkey, child, rest, hsegments, hpath⟩ := (mem_listedPaths_children hkeys).mp hp
      rw [hbase p hp] at hpath
      obtain ⟨-, hchild⟩ := List.append_inj' hpath rfl
      exact ⟨key, hkey, rest, by rw [hsegments, List.singleton_inj.mp hchild]⟩
    · rintro ⟨key, hkey, rest, hsegments⟩
      obtain ⟨p, hp, hpath⟩ := exists_listedPath hkeys hkey hsegments
      rw [hbase p hp] at hpath
      obtain ⟨-, hchild⟩ := List.append_inj' hpath rfl
      exact ⟨p, hp, List.singleton_inj.mp hchild⟩

/-- A call that fails with an error that wraps the given one. -/
def Fails {α : Type} (target : Sentinel) (outcome : Option (Except Err α × Session Objects)) :
    Prop := ∃ err s, outcome = some (.error err, s) ∧ err.is target = true

variable (hpath : ioFSPath (nameOf path) = .ok path)
include hpath

/-- `Open` of a directory. -/
theorem openFile_directory_spec (h : Denotes objects path .directory) :
    ∃ d s, openFile (backend hashes) (nameOf path) envs ⟨objects, calls⟩ =
        some (.ok (.directory d), s) ∧
      (d.entries.map Info.name).Pairwise (· < ·) ∧
      ∀ child, child ∈ d.entries.map Info.name ↔ ∃ key ∈ objects, ∃ rest,
        segmentsOf key = path.segments ++ child :: rest := by
  obtain ⟨found, calls', hkind, hmetadata⟩ := metadata_spec hashes envs calls hkeys h
  obtain ⟨infos, hentries, hsorted, hnames⟩ := directoryEntries_spec hashes envs calls' hkeys path
  unfold openFile
  rw [hpath]
  dsimp only
  rw [Call.bind_apply, hmetadata, Option.bind_some]
  dsimp only
  rw [if_pos hkind, Call.bind_apply, hentries, Option.bind_some]
  dsimp only
  rw [Call.bind_apply, ioFSBase_nameOf]
  exact ⟨_, _, rfl, hsorted, hnames⟩

/-- `Open` of an object. -/
theorem openFile_file_spec (h : objects.lookup path.value = some stored) :
    ∃ info s, openFile (backend hashes) (nameOf path) envs ⟨objects, calls⟩ =
      some (.ok (.file (bytesReader stored.content) info), s) := by
  have hopen : provider ((backend hashes).openPath path) envs ⟨objects, calls + 1⟩ =
      some ((bytesReader stored.content, none), ⟨objects, calls + 2⟩) := by
    have hreading : (backend hashes).openPath path = reading path {} fun stored ↦
      (bytesReader stored.content, none) := rfl
    unfold provider
    rw [hreading, reading_apply]
    dsimp only
    rw [h]
    rfl
  unfold openFile
  rw [hpath]
  dsimp only
  rw [Call.bind_apply, metadata_file hashes envs calls hkeys h, Option.bind_some]
  dsimp only
  have hkind : (metadataFor path stored).kind ≠ .directory := nofun
  rw [if_neg hkind, Call.bind_apply, hopen, Option.bind_some]
  dsimp only
  rw [Call.bind_apply, ioFSBase_nameOf]
  exact ⟨_, _, rfl⟩

/-- `Stat` of an object. -/
theorem stat_file_spec (h : objects.lookup path.value = some stored) :
    ∃ info s, Iofs.stat (backend hashes) (nameOf path) envs ⟨objects, calls⟩ = some (.ok info, s) ∧
      info.metadata = metadataFor path stored := by
  unfold Iofs.stat
  rw [hpath]
  dsimp only
  rw [Call.bind_apply, metadata_file hashes envs calls hkeys h, Option.bind_some]
  dsimp only
  rw [Call.bind_apply, ioFSBase_nameOf]
  exact ⟨_, _, rfl, rfl⟩

/-- `ReadDir` of an object. -/
theorem readDir_file_spec (h : objects.lookup path.value = some stored) :
    ∃ err s, Iofs.readDir (backend hashes) (nameOf path) envs ⟨objects, calls⟩ =
      some (.error err, s) := by
  unfold Iofs.readDir
  rw [hpath]
  dsimp only
  rw [Call.bind_apply, metadata_file hashes envs calls hkeys h, Option.bind_some]
  exact ⟨_, _, rfl⟩

/-- `ReadDir` of a directory. -/
theorem readDir_directory_spec (h : Denotes objects path .directory) :
    ∃ infos s, Iofs.readDir (backend hashes) (nameOf path) envs ⟨objects, calls⟩ =
        some (.ok infos, s) ∧
      (infos.map Info.name).Pairwise (· < ·) ∧
      ∀ child, child ∈ infos.map Info.name ↔ ∃ key ∈ objects, ∃ rest,
        segmentsOf key = path.segments ++ child :: rest := by
  obtain ⟨found, calls', hkind, hmetadata⟩ := metadata_spec hashes envs calls hkeys h
  obtain ⟨infos, hentries, hsorted, hnames⟩ := directoryEntries_spec hashes envs calls' hkeys path
  unfold Iofs.readDir
  rw [hpath]
  dsimp only
  rw [Call.bind_apply, hmetadata, Option.bind_some]
  dsimp only
  rw [if_neg (not_not.mpr hkind), Call.bind_apply, hentries]
  exact ⟨infos, _, rfl, hsorted, hnames⟩

omit hkeys hpath in
/-- The three methods at a name that they reject. -/
theorem fails_of_rejected {name : Str} {err : Err} (h : ioFSPath name = .error err)
    (s : Session Objects) :
    Fails .invalid (openFile (backend hashes) name envs s) ∧
      Fails .invalid (Iofs.stat (backend hashes) name envs s) ∧
      Fails .invalid (Iofs.readDir (backend hashes) name envs s) := by
  have hinvalid : err = .sentinel .invalid := by
    unfold ioFSPath at h
    split_ifs at h
    · exact (Except.error.inj h).symm
    · split at h
      · exact (Except.error.inj h).symm
      · contradiction
  subst hinvalid
  unfold openFile Iofs.stat Iofs.readDir
  rw [h]
  exact ⟨⟨_, s, rfl, rfl⟩, ⟨_, s, rfl, rfl⟩, ⟨_, s, rfl, rfl⟩⟩

/-- The three methods at a name with nothing at or beneath it. -/
theorem fails_of_missing (hroot : path ≠ .root) (hmissing : path.value ∉ objects)
    (hbeneath : ¬∃ name ∈ objects, directoryPrefix path <+: name) :
    Fails .notExist (openFile (backend hashes) (nameOf path) envs ⟨objects, calls⟩) ∧
      Fails .notExist (Iofs.stat (backend hashes) (nameOf path) envs ⟨objects, calls⟩) ∧
      Fails .notExist (Iofs.readDir (backend hashes) (nameOf path) envs ⟨objects, calls⟩) := by
  obtain ⟨calls', hmetadata⟩ :=
    metadata_missing hashes envs calls hkeys hroot hmissing hbeneath
  unfold openFile Iofs.stat Iofs.readDir
  rw [hpath]
  dsimp only
  rw [Call.bind_apply, Call.bind_apply, Call.bind_apply, hmetadata]
  exact ⟨⟨_, _, rfl, rfl⟩, ⟨_, _, rfl, rfl⟩, ⟨_, _, rfl, rfl⟩⟩

end Meaning

/-- **What a name denotes.**  A name that `io/fs` does not allow is invalid to all
three methods.  Of the others, a key is a file with the stored bytes, the root and
what has a key beneath it is a directory whose entries are the segments beneath
it, and nothing else exists. -/
theorem name_denotes (hashes : Hashes) {objects : Objects} (hkeys : KeysValid objects)
    (name : Str) (envs : Nat → Env) (calls : Nat) :
    let opened := openFile (backend hashes) name envs ⟨objects, calls⟩
    let stated := Iofs.stat (backend hashes) name envs ⟨objects, calls⟩
    let read := Iofs.readDir (backend hashes) name envs ⟨objects, calls⟩
    (∀ err, ioFSPath name = .error err →
      Fails .invalid opened ∧ Fails .invalid stated ∧ Fails .invalid read) ∧
    ∀ path, ioFSPath name = .ok path → match meaning objects name with
      | .file stored =>
        (∃ stream info s, opened = some (.ok (.file stream info), s) ∧
          stream.source.content = stored.content ∧ stream.source.Complete) ∧
        (∃ info s, stated = some (.ok info, s) ∧ info.metadata.kind = .file ∧
          info.metadata.size = stored.content.length) ∧
        ∃ err s, read = some (.error err, s)
      | .directory =>
        (∃ d s, opened = some (.ok (.directory d), s)) ∧
        (∃ info s, stated = some (.ok info, s) ∧ info.metadata.kind = .directory) ∧
        ∃ infos s, read = some (.ok infos, s) ∧ (infos.map Info.name).Pairwise (· < ·) ∧
          ∀ child, child ∈ infos.map Info.name ↔ ∃ key ∈ objects, ∃ rest,
            segmentsOf key = path.segments ++ child :: rest
      | .missing => Fails .notExist opened ∧ Fails .notExist stated ∧ Fails .notExist read := by
  intro opened stated read
  refine ⟨fun err herr ↦ fails_of_rejected hashes envs herr _, fun path hpath ↦ ?_⟩
  obtain rfl := nameOf_of_ioFSPath hpath
  rcases meaning_cases objects path with
    ⟨stored, hmeaning, hl⟩ | ⟨hmeaning, hdirectory⟩ | ⟨hmeaning, hroot, hmissing, hbeneath⟩
  · rw [hmeaning]
    obtain ⟨info, s, hopened⟩ := openFile_file_spec hashes envs calls hkeys hpath hl
    obtain ⟨info', s', hstated, hmetadata⟩ := stat_file_spec hashes envs calls hkeys hpath hl
    refine ⟨⟨_, info, s, hopened, rfl, rfl⟩, ⟨info', s', hstated, ?_, ?_⟩,
      readDir_file_spec hashes envs calls hkeys hpath hl⟩
    · rw [hmetadata]
      rfl
    · rw [hmetadata]
      rfl
  · rw [hmeaning]
    obtain ⟨d, s, hopened, -⟩ := openFile_directory_spec hashes envs calls hkeys hpath hdirectory
    obtain ⟨info, calls', hkind, hstated⟩ := stat_spec hashes envs calls hkeys hpath hdirectory
    exact ⟨⟨d, s, hopened⟩, ⟨info, _, hstated, hkind⟩,
      readDir_directory_spec hashes envs calls hkeys hpath hdirectory⟩
  · rw [hmeaning]
    exact fails_of_missing hashes envs calls hkeys hpath hroot hmissing hbeneath

/-- A key that is the directory of another key is a file. -/
theorem name_denotes_at :
    let envs : Nat → Env := fun _ ↦ visiting (KeyOrder.increasing Str).toIterOrder
    ∃ stream info s,
      openFile (backend ⟨id, id, fun _ ↦ 0⟩) (.lit "a") envs ⟨objectAndDirectory, 0⟩ =
        some (.ok (.file stream info), s) ∧ stream.source.content = .lit "x" := by
  intro envs
  have hpath : ioFSPath (.lit "a") = .ok ⟨.lit "a", .inr (by decide)⟩ :=
    ioFSPath_of_normalForm (by decide) (by decide)
  have hmeaning : meaning objectAndDirectory (.lit "a") =
    .file ⟨.lit "x", none, [], .visibilityPrivate, 0⟩ := rfl
  have hdenotes := (name_denotes ⟨id, id, fun _ ↦ 0⟩ keysValid_objectAndDirectory (.lit "a")
    envs 0).2 _ hpath
  rw [hmeaning] at hdenotes
  obtain ⟨⟨stream, info, s, hopened, hcontent, -⟩, -⟩ := hdenotes
  exact ⟨stream, info, s, hopened, hcontent⟩

end GoFilesystem.Memory
