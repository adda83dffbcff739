import GoFilesystem.Iofs
import GoFilesystem.Memory.Listing

/-!
# Traversing the in-memory adapter

Through the bridge to `io/fs`, a path of the in-memory adapter is a file when an
object is stored at it, and a directory when it is the root or some object lies
beneath it.  `ReadDir` lists a directory from the same objects.  The two agree
when no object is also a directory (`Hierarchical`) and every key is valid
UTF-8, which `io/fs` demands of a name; `walkDir_spec` follows the traversal
down from a directory.
-/

namespace GoFilesystem.Memory

open Go Iofs

/-- No object is the directory of another. -/
def Hierarchical (objects : Objects) : Prop :=
  ∀ name rest, name ∈ objects → name ++ slash :: rest ∉ objects

def ValidKeys (objects : Objects) : Prop := ∀ name ∈ objects, validString name = true

/-- What a bridge tells apart: files, and the root and what has objects beneath
it. -/
def Denotes (objects : Objects) (path : Path) : EntryKind → Prop
  | .file => path.value ∈ objects
  | .directory => path = .root ∨ path.value ∉ objects ∧
      ∃ name ∈ objects, directoryPrefix path <+: name
  | .none => False

variable {order : IterOrder Str} {objects : Objects} {path : Path}

section Bridge

variable (hashes : Hashes) (envs : Nat → Env) (calls : Nat)

theorem provider_stat : provider ((backend hashes).stat path) envs ⟨objects, calls⟩ =
    some (match objects.lookup path.value with
      | none => ({}, some (notFound path))
      | some stored => (metadataFor path stored, none),
    ⟨objects, calls + 1⟩) := by
  have hstat : (backend hashes).stat path = reading path {} fun stored ↦
    (metadataFor path stored, none) := rfl
  unfold provider
  rw [hstat, reading_apply]
  rfl

variable (hkeys : KeysValid objects)
include hkeys

theorem provider_list {options : ListOptions} (h : 0 ≤ options.limit) :
    provider ((backend hashes).list path options) envs ⟨objects, calls⟩ =
      some (({ entries := sortedEntries options.limit (listing (envs calls).objectsOrder
        (directoryPrefix path) options.recursive objects) }, none),
        ⟨objects, calls + 1⟩) := by
  have hlist : (backend hashes).list = list := rfl
  unfold provider
  rw [hlist, list_eq hkeys rfl h]
  rfl

/-- A listing of one entry is empty when no object is beneath the directory. -/
theorem sortedEntries_one_eq_nil {pre : Str} :
    sortedEntries 1 (listing order pre false objects) = [] ↔ ¬∃ name ∈ objects, pre <+: name := by
  have hnames : (∃ name ∈ objects, pre <+: name) ↔ ∃ key, key ∈ listedNames pre false objects := by
    simp only [listedNames, Finset.mem_image, Finset.mem_filter, Finmap.mem_keys]
    constructor
    · rintro ⟨name, hname, hpre⟩
      exact ⟨_, name, ⟨hname, hpre⟩, rfl⟩
    · rintro ⟨-, name, ⟨hname, hpre⟩, -⟩
      exact ⟨name, hname, hpre⟩
  rw [hnames, sortedEntries, keys_listing order hkeys, shown, if_neg (by decide)]
  cases hsort : (listedNames pre false objects).sort (· ≤ ·) with
  | nil =>
      refine iff_of_true rfl ?_
      rintro ⟨key, hkey⟩
      rw [← Finset.mem_sort (· ≤ ·), hsort] at hkey
      exact List.not_mem_nil hkey
  | cons key keys =>
      have hkey : key ∈ listedNames pre false objects := by
        rw [← Finset.mem_sort (· ≤ ·), hsort]
        exact List.mem_cons_self
      refine iff_of_false ?_ (not_not.mpr ⟨key, hkey⟩)
      rw [← keys_listing order hkeys, Finmap.mem_keys] at hkey
      obtain ⟨entry, hentry⟩ := Finmap.mem_iff.mp hkey
      have hfirst : List.filterMap (fun a ↦ (listing order pre false objects).lookup a)
          ((key :: keys).take 1) = [entry] := by
        simp [hentry]
      exact fun hnil ↦ List.cons_ne_nil _ _ (hfirst.symm.trans hnil)

/-- `metadata` of an object or a directory. -/
theorem metadata_spec {kind : EntryKind} (h : Denotes objects path kind) :
    ∃ found calls', found.kind = kind ∧
      metadata (backend hashes) path envs ⟨objects, calls⟩ =
        some ((found, none), ⟨objects, calls'⟩) := by
  unfold metadata
  by_cases hroot : path.isRoot = true
  · rw [if_pos hroot]
    rw [Path.isRoot_iff] at hroot
    subst hroot
    cases kind with
    | directory => exact ⟨_, calls, rfl, rfl⟩
    | file =>
        obtain ⟨stored, hl⟩ := Finmap.mem_iff.mp h
        exact absurd rfl (hkeys _ _ hl).ne_nil
    | none => exact h.elim
  · rw [if_neg hroot, Call.bind_apply, provider_stat, Option.bind_some]
    cases kind with
    | none => exact h.elim
    | file =>
        obtain ⟨stored, hl⟩ := Finmap.mem_iff.mp h
        rw [hl]
        exact ⟨metadataFor path stored, _, rfl, rfl⟩
    | directory =>
        rcases h with heq | ⟨hmissing, hbeneath⟩
        · exact absurd (Path.isRoot_iff.mpr heq) hroot
        · rw [Finmap.lookup_eq_none.mpr hmissing]
          have hnotFound : (notFound path).is .notFound = true := rfl
          dsimp only
          rw [if_pos hnotFound, Call.bind_apply, provider_list _ _ _ hkeys (by decide),
            Option.bind_some]
          dsimp only
          cases hentries : sortedEntries 1 (listing (envs (calls + 1)).objectsOrder
              (directoryPrefix path) false objects) with
          | nil => exact absurd hbeneath ((sortedEntries_one_eq_nil hkeys).mp hentries)
          | cons entry entries =>
              exact ⟨{ path := path, kind := .directory }, calls + 2, rfl, rfl⟩

/-- `metadata` of a path with nothing at or beneath it. -/
theorem metadata_missing (hroot : path ≠ .root) (hmissing : path.value ∉ objects)
    (hbeneath : ¬∃ name ∈ objects, directoryPrefix path <+: name) :
    ∃ calls', metadata (backend hashes) path envs ⟨objects, calls⟩ =
      some (({}, some (notFound path)), ⟨objects, calls'⟩) := by
  have hnotFound : (notFound path).is .notFound = true := rfl
  unfold metadata
  rw [if_neg (mt Path.isRoot_iff.mp hroot), Call.bind_apply, provider_stat, Option.bind_some,
    Finmap.lookup_eq_none.mpr hmissing]
  dsimp only
  rw [if_pos hnotFound, Call.bind_apply, provider_list _ _ _ hkeys (by decide), Option.bind_some]
  dsimp only
  rw [(sortedEntries_one_eq_nil hkeys).mpr hbeneath]
  exact ⟨_, rfl⟩

/-- `ReadDir` accepts only names of directories. -/
theorem readDir_ensures (name : Str) :
    Call.Ensures (Iofs.readDir (backend hashes) name) envs ⟨objects, calls⟩ fun r _ ↦
      ∀ infos, r = .ok infos → ∃ path, ioFSPath name = .ok path ∧
        Denotes objects path .directory := by
  unfold Iofs.readDir
  cases hpath : ioFSPath name with
  | error err => exact .pure nofun
  | ok path =>
      by_cases hdirectory : Denotes objects path .directory
      · exact fun _ _ _ _ _ ↦ ⟨path, rfl, hdirectory⟩
      by_cases hfile : path.value ∈ objects
      · obtain ⟨found, calls', hkind, hmetadata⟩ :=
          metadata_spec hashes envs calls hkeys (by exact hfile : Denotes objects path .file)
        refine .bind_of_eq hmetadata ?_
        dsimp only
        rw [hkind, if_pos (by decide)]
        exact .pure nofun
      · obtain ⟨calls', hmetadata⟩ := metadata_missing hashes envs calls hkeys
          (fun hroot ↦ hdirectory (.inl hroot)) hfile fun hbeneath ↦
            hdirectory (.inr ⟨hfile, hbeneath⟩)
        exact .bind_of_eq hmetadata (.pure nofun)

/-- `Stat` of an accepted name. -/
theorem stat_spec (hpath : ioFSPath (nameOf path) = .ok path) {kind : EntryKind}
    (h : Denotes objects path kind) : ∃ info calls', info.metadata.kind = kind ∧
      Iofs.stat (backend hashes) (nameOf path) envs ⟨objects, calls⟩ =
        some (.ok info, ⟨objects, calls'⟩) := by
  obtain ⟨found, calls', hkind, hmetadata⟩ := metadata_spec hashes envs calls hkeys h
  unfold Iofs.stat
  rw [hpath]
  dsimp only
  rw [Call.bind_apply, hmetadata, Option.bind_some]
  dsimp only
  rw [Call.bind_apply, ioFSBase_nameOf]
  exact ⟨_, calls', hkind, rfl⟩

/-- `ReadDir` of an accepted name of a directory: its listing, sorted by the names
of the entries. -/
theorem readDir_spec (hpath : ioFSPath (nameOf path) = .ok path)
    (h : Denotes objects path .directory) : ∃ turn calls', ∃ entries : List Entry,
      Iofs.readDir (backend hashes) (nameOf path) envs ⟨objects, calls⟩ =
        some (.ok (entries.map infoOf), ⟨objects, calls'⟩) ∧
      entries.Perm (sortedEntries 0 (listing (envs turn).objectsOrder (directoryPrefix path) false
        objects)) := by
  obtain ⟨found, calls', hkind, hmetadata⟩ := metadata_spec hashes envs calls hkeys h
  unfold Iofs.readDir
  rw [hpath]
  dsimp only
  rw [Call.bind_apply, hmetadata, Option.bind_some]
  dsimp only
  rw [hkind, if_neg (not_not.mpr rfl), Call.bind_apply]
  unfold directoryEntries
  rw [Call.bind_apply, provider_list _ _ _ hkeys le_rfl, Option.bind_some]
  dsimp only
  have hsort (entries : List Entry) :
      (entries.map infoOf).insertionSort (fun left right ↦ left.name ≤ right.name) =
        (entries.insertionSort fun left right ↦ left.path.base ≤ right.path.base).map infoOf :=
    (List.map_insertionSort (fun left right : Entry ↦ left.path.base ≤ right.path.base)
      (fun left right : Info ↦ left.name ≤ right.name) infoOf entries fun _ _ _ _ ↦ Iff.rfl).symm
  rw [hsort]
  exact ⟨_, _, _, rfl, List.perm_insertionSort _ _⟩

end Bridge

/-! ## The entries of a directory -/

theorem directoryPrefix_cases (path : Path) :
    (path = .root ∧ directoryPrefix path = []) ∨
      path ≠ .root ∧ directoryPrefix path = path.value ++ [slash] := by
  unfold directoryPrefix
  by_cases hroot : path.value = []
  · exact .inl ⟨Path.ext hroot, by rw [if_neg (not_not.mpr hroot), hroot]⟩
  · exact .inr ⟨fun heq ↦ hroot (congrArg Path.value heq), if_pos hroot⟩

/-- The name of an entry, joined to the name of its directory, is the name of its
path. -/
theorem join_nameOf {child : Str} (hchild : slash ∉ child)
    (h : NormalForm (directoryPrefix path ++ child)) :
    PathName.join [nameOf path, PathName.base (directoryPrefix path ++ child)] =
      directoryPrefix path ++ child := by
  rcases directoryPrefix_cases path with ⟨rfl, hpre⟩ | ⟨hroot, hpre⟩
  · rw [hpre] at h ⊢
    rw [PathName.base_append (.inl rfl) hchild h.ne_nil]
    exact h.join_current
  · rw [hpre, List.append_assoc, List.singleton_append] at h
    rw [hpre, PathName.base_append (.inr ⟨_, rfl⟩) hchild h.right_ne_nil, nameOf,
      if_neg (mt Path.isRoot_iff.mp hroot), List.append_assoc, List.singleton_append]
    exact h.join_eq

/-- What `ReadDir` lists is what `Stat` finds. -/
structure ChildOf (objects : Objects) (path : Path) (entry : Entry) : Prop where
  child : ∃ child, slash ∉ child ∧ entry.path.value = directoryPrefix path ++ child
  normalForm : NormalForm entry.path.value
  accepted : ioFSPath (nameOf entry.path) = .ok entry.path
  denotes : Denotes objects entry.path entry.kind

variable {entry : Entry}

theorem ChildOf.join_eq (h : ChildOf objects path entry) :
    PathName.join [nameOf path, (infoOf entry).name] = nameOf entry.path := by
  obtain ⟨child, hchild, heq⟩ := h.child
  have hnormal := h.normalForm
  rw [nameOf_of_normalForm h.normalForm]
  unfold infoOf Path.base
  rw [heq] at hnormal ⊢
  exact join_nameOf hchild hnormal

theorem childOf_of_mem (hkeys : KeysValid objects) (hvalid : ValidKeys objects)
    (hunmixed : Hierarchical objects)
    (h : entry ∈ sortedEntries 0 (listing order (directoryPrefix path) false objects)) :
    ChildOf objects path entry := by
  obtain ⟨key, hkey, hentry⟩ := (mem_sortedEntries hkeys).mp h
  obtain ⟨child, hchild, rfl⟩ :=
    child_of_mem_listedNames ((Finset.mem_sort _).mp (mem_of_mem_shown hkey))
  obtain ⟨hvalue, hcases⟩ := file_or_directory hkeys hentry
  rw [← hvalue] at hcases
  have haccepted (hnormal : NormalForm entry.path.value)
      (hutf : validString entry.path.value = true) :
      ioFSPath (nameOf entry.path) = .ok entry.path := by
    rw [nameOf_of_normalForm hnormal, ioFSPath_of_normalForm hnormal hutf]
  rcases hcases with ⟨stored, hl, heq⟩ | ⟨-, ⟨rest, hrest⟩, heq⟩
  · have hmem : entry.path.value ∈ objects := Finmap.mem_iff.mpr ⟨stored, hl⟩
    have hnormal := hkeys _ _ hl
    refine ⟨⟨child, hchild, hvalue⟩, hnormal, haccepted hnormal (hvalid _ hmem), ?_⟩
    rw [heq]
    exact hmem
  · obtain ⟨stored, hl⟩ := Finmap.mem_iff.mp hrest
    have hnormal := (hkeys _ _ hl).left
    refine ⟨⟨child, hchild, hvalue⟩, hnormal,
      haccepted hnormal (validStringFrom_of_append (Nat.zero_le _) (hvalid _ hrest)), ?_⟩
    rw [heq]
    refine .inr ⟨fun hmem ↦ hunmixed _ rest hmem hrest, _, hrest, ?_⟩
    rcases directoryPrefix_cases entry.path with ⟨hroot, -⟩ | ⟨-, hpre⟩
    · exact absurd (congrArg Path.value hroot) hnormal.ne_nil
    · exact ⟨rest, by rw [directoryEntry, hpre]; simp⟩

/-! ## The walk -/

/-- The path itself and what lies beneath it. -/
def Under (path : Path) (name : Str) : Prop :=
  name = path.value ∨ directoryPrefix path <+: name

theorem Under.length_le {name : Str} (h : Under path name) : path.value.length ≤ name.length := by
  rcases h with rfl | hpre
  · exact le_rfl
  · rcases directoryPrefix_cases path with ⟨rfl, -⟩ | ⟨-, heq⟩
    · exact Nat.zero_le _
    · rw [heq] at hpre
      have hlength := hpre.length_le
      rw [List.length_append] at hlength
      omega

/-- What a name under an entry of a directory is filed under. -/
theorem ChildOf.listedName_eq (h : ChildOf objects path entry) {name : Str}
    (hname : Under entry.path name) :
    directoryPrefix path <+: name ∧
      listedName (directoryPrefix path) false name = entry.path.value := by
  obtain ⟨child, hchild, heq⟩ := h.child
  rcases hname with rfl | ⟨rest, rfl⟩
  · rw [heq, listedName_child hchild]
    exact ⟨List.prefix_append _ _, rfl⟩
  · rcases directoryPrefix_cases entry.path with ⟨hroot, -⟩ | ⟨-, hpre⟩
    · exact absurd (congrArg Path.value hroot) h.normalForm.ne_nil
    · rw [hpre, heq, List.append_assoc, List.singleton_append, listedName_nested hchild]
      exact ⟨by rw [List.append_assoc]; exact List.prefix_append _ _, rfl⟩

/-- The part of a walk that visits the names in `scope`: each once, the objects
as files and nothing else as a file. -/
structure Walked (objects : Objects) (scope : Str → Prop) (visits : List (Str × Info)) : Prop where
  nodup : (visits.map Prod.fst).Nodup
  within : ∀ v ∈ visits, scope v.1
  isDir : ∀ v ∈ visits, v.2.isDir = false ↔ v.1 ∈ objects
  complete : ∀ key ∈ objects, scope key → key ∈ visits.map Prod.fst

theorem Walked.nil {scope : Str → Prop} (h : ∀ name, ¬scope name) : Walked objects scope [] :=
  ⟨.nil, nofun, nofun, fun key _ hscope ↦ absurd hscope (h key)⟩

theorem Walked.append {scope scope' : Str → Prop} {visits visits' : List (Str × Info)}
    (h : Walked objects scope visits) (h' : Walked objects scope' visits')
    (hdisjoint : ∀ name, scope name → ¬scope' name) :
    Walked objects (fun name ↦ scope name ∨ scope' name) (visits ++ visits') where
  nodup := by
    rw [List.map_append]
    refine h.nodup.append h'.nodup ?_
    rintro name hname hname'
    obtain ⟨v, hv, rfl⟩ := List.mem_map.mp hname
    obtain ⟨v', hv', heq⟩ := List.mem_map.mp hname'
    exact hdisjoint v.1 (h.within v hv) (heq ▸ h'.within v' hv')
  within v hv := (List.mem_append.mp hv).imp (h.within v) (h'.within v)
  isDir v hv := (List.mem_append.mp hv).elim (h.isDir v) (h'.isDir v)
  complete key hkey hscope := by
    rw [List.map_append, List.mem_append]
    exact hscope.imp (h.complete key hkey) (h'.complete key hkey)

/-- The scope matters only for the names visited and the objects. -/
theorem Walked.mono {scope scope' : Str → Prop} {visits : List (Str × Info)}
    (h : Walked objects scope visits) (hle : ∀ name, scope name → scope' name)
    (hge : ∀ key ∈ objects, scope' key → scope key) : Walked objects scope' visits where
  nodup := h.nodup
  within v hv := hle v.1 (h.within v hv)
  isDir := h.isDir
  complete key hkey hscope := h.complete key hkey (hge key hkey hscope)

/-- The loop over the entries of a directory. -/
theorem walkEach_spec (hashes : Hashes) {envs : Nat → Env}
    {walk : Str → Info → Bridge Objects (Except Err (List (Str × Info)))} {entries : List Entry}
    (hchild : ∀ entry ∈ entries, ChildOf objects path entry)
    (hnodup : (entries.map fun entry ↦ entry.path.value).Nodup)
    (hwalk : ∀ entry ∈ entries, ∀ calls, ∃ visits calls',
      walk (nameOf entry.path) (infoOf entry) envs ⟨objects, calls⟩ =
        some (.ok visits, ⟨objects, calls'⟩) ∧
      Walked objects (fun name ↦ NormalForm name ∧ Under entry.path name) visits) (calls : Nat) :
    ∃ visits calls', (fsys (backend hashes)).walkEach walk (nameOf path) (entries.map infoOf) envs
        ⟨objects, calls⟩ = some (.ok visits, ⟨objects, calls'⟩) ∧
      Walked objects (fun name ↦ ∃ entry ∈ entries, NormalForm name ∧ Under entry.path name)
        visits := by
  induction entries generalizing calls with
  | nil => exact ⟨[], calls, rfl, .nil (by simp)⟩
  | cons entry entries ih =>
      rw [List.forall_mem_cons] at hchild hwalk
      rw [List.map_cons, List.nodup_cons] at hnodup
      obtain ⟨first, calls₁, hfirst, hwalked⟩ := hwalk.1 calls
      obtain ⟨rest, calls₂, hrest, hwalked'⟩ := ih hchild.2 hnodup.2 hwalk.2 calls₁
      refine ⟨first ++ rest, calls₂, ?_, ?_⟩
      · rw [List.map_cons, WalkFS.walkEach, Call.bind_apply]
        have hname : PathName.join [nameOf path, (fsys (backend hashes)).name (infoOf entry)] =
            nameOf entry.path := hchild.1.join_eq
        rw [hname, hfirst, Option.bind_some]
        dsimp only
        rw [Call.bind_apply, hrest]
        rfl
      · refine (hwalked.append hwalked' ?_).mono (by simp) (by simp)
        rintro name ⟨-, hunder⟩ ⟨entry', hentry', -, hunder'⟩
        refine hnodup.1 (List.mem_map.mpr ⟨entry', hentry', ?_⟩)
        rw [← (hchild.1.listedName_eq hunder).2,
          ← ((hchild.2 entry' hentry').listedName_eq hunder').2]

/-- A path is longer than the path of its directory. -/
theorem ChildOf.length_lt (h : ChildOf objects path entry) :
    path.value.length < entry.path.value.length := by
  obtain ⟨child, -, heq⟩ := h.child
  rcases directoryPrefix_cases path with ⟨rfl, -⟩ | ⟨-, hpre⟩
  · exact List.length_pos_iff.mpr h.normalForm.ne_nil
  · rw [heq, hpre]
    simp

/-- Something is stored under every entry. -/
theorem ChildOf.exists_key (h : ChildOf objects path entry) :
    ∃ key ∈ objects, Under entry.path key := by
  have hdenotes := h.denotes
  cases hkind : entry.kind with
  | none =>
      rw [hkind] at hdenotes
      exact hdenotes.elim
  | file =>
      rw [hkind] at hdenotes
      exact ⟨_, hdenotes, .inl rfl⟩
  | directory =>
      rw [hkind] at hdenotes
      rcases hdenotes with hroot | ⟨-, key, hkey, hpre⟩
      · exact absurd (congrArg Path.value hroot) h.normalForm.ne_nil
      · exact ⟨key, hkey, .inr hpre⟩

section Walk

variable (hashes : Hashes) (envs : Nat → Env)

/-- The names that a walk from a path visits. -/
def Reaches (path : Path) (name : Str) : Prop :=
  name = nameOf path ∨ NormalForm name ∧ Under path name

theorem reaches_iff_of_normalForm (h : NormalForm path.value) (name : Str) :
    Reaches path name ↔ NormalForm name ∧ Under path name := by
  rw [Reaches, nameOf_of_normalForm h]
  constructor
  · rintro (rfl | hunder)
    · exact ⟨h, .inl rfl⟩
    · exact hunder
  · exact .inr

variable (hkeys : KeysValid objects)
include hkeys

theorem walkDir_file (hunmixed : Hierarchical objects) {info : Info} (h : path.value ∈ objects)
    (hfile : info.isDir = false) (depth calls : Nat) :
    (fsys (backend hashes)).walkDir (depth + 1) (nameOf path) info envs ⟨objects, calls⟩ =
        some (.ok [(nameOf path, info)], ⟨objects, calls⟩) ∧
      Walked objects (Reaches path) [(nameOf path, info)] := by
  obtain ⟨stored, hl⟩ := Finmap.mem_iff.mp h
  have hnormal := hkeys _ _ hl
  have hname := nameOf_of_normalForm hnormal
  constructor
  · rw [WalkFS.walkDir, if_neg]
    · rfl
    · rw [Bool.not_eq_true]
      exact hfile
  · refine ⟨by simp, by simp [Reaches], ?_, ?_⟩
    · intro v hv
      rw [List.mem_singleton.mp hv, hname]
      exact iff_of_true hfile h
    · intro key hkey hreaches
      rw [reaches_iff_of_normalForm hnormal] at hreaches
      rcases hreaches.2 with rfl | ⟨rest, rfl⟩
      · simp [hname]
      · rcases directoryPrefix_cases path with ⟨heq, -⟩ | ⟨-, hpre⟩
        · exact absurd (congrArg Path.value heq) hnormal.ne_nil
        · rw [hpre, List.append_assoc, List.singleton_append] at hkey
          exact absurd hkey (hunmixed _ rest h)

theorem value_notMem_of_directory (h : Denotes objects path .directory) : path.value ∉ objects := by
  rcases h with rfl | ⟨hmissing, -⟩
  · intro hmem
    obtain ⟨stored, hl⟩ := Finmap.mem_iff.mp hmem
    exact (hkeys _ _ hl).ne_nil rfl
  · exact hmissing

/-- The name of a directory is not that of an object. -/
theorem notMem_of_directory (h : Denotes objects path .directory) : nameOf path ∉ objects := by
  rcases path.canonical with hroot | hnormal
  · obtain rfl : path = .root := Path.ext hroot
    intro hmem
    obtain ⟨stored, hl⟩ := Finmap.mem_iff.mp hmem
    exact (hkeys _ _ hl).ne_current rfl
  · rw [nameOf_of_normalForm hnormal]
    exact value_notMem_of_directory hkeys h

omit hkeys in
/-- A directory does not lie beneath itself. -/
theorem not_isPrefix_nameOf (h : NormalForm (nameOf path)) :
    ¬directoryPrefix path <+: nameOf path := by
  rcases directoryPrefix_cases path with ⟨rfl, -⟩ | ⟨hroot, hpre⟩
  · exact absurd rfl h.ne_current
  · rw [hpre, nameOf_of_normalForm (Path.normalForm hroot)]
    intro hprefix
    have hlength := hprefix.length_le
    rw [List.length_append, List.length_singleton] at hlength
    omega

/-- Every object beneath a directory is under one of its entries. -/
theorem exists_entry_of_mem {key : Str} (hkey : key ∈ objects)
    (hpre : directoryPrefix path <+: key) :
    ∃ entry ∈ sortedEntries 0 (listing order (directoryPrefix path) false objects),
      Under entry.path key := by
  have hlisted : listedName (directoryPrefix path) false key ∈
      listing order (directoryPrefix path) false objects :=
    (mem_listing hkeys).mpr ⟨key, hkey, hpre, rfl⟩
  obtain ⟨entry, hentry⟩ := Finmap.mem_iff.mp hlisted
  have hvalue := (file_or_directory hkeys hentry).1
  refine ⟨entry, (mem_sortedEntries hkeys).mpr ⟨_, ?_, hentry⟩, ?_⟩
  · rw [shown, if_pos rfl, Finset.mem_sort, ← keys_listing order hkeys, Finmap.mem_keys]
    exact hlisted
  · rcases child_or_nested hpre with ⟨child, hchild, rfl⟩ | ⟨child, rest, hchild, rfl⟩
    · rw [listedName_child hchild] at hvalue
      exact .inl hvalue.symm
    · rw [listedName_nested hchild] at hvalue
      rcases directoryPrefix_cases entry.path with ⟨hroot, hnil⟩ | ⟨-, hpre'⟩
      · exact .inr (by rw [hnil]; exact List.nil_prefix)
      · rw [Under, hpre', hvalue]
        exact .inr ⟨rest, by simp⟩

/-- One directory, if its entries are walked. -/
theorem walkDir_directory (hvalid : ValidKeys objects) (hunmixed : Hierarchical objects)
    (hpath : ioFSPath (nameOf path) = .ok path) {info : Info}
    (hkind : info.metadata.kind = .directory) (h : Denotes objects path .directory) {depth : Nat}
    (hwalk : ∀ entry, ChildOf objects path entry → ∀ calls, ∃ visits calls',
      (fsys (backend hashes)).walkDir depth (nameOf entry.path) (infoOf entry) envs
        ⟨objects, calls⟩ = some (.ok visits, ⟨objects, calls'⟩) ∧
      Walked objects (Reaches entry.path) visits) (calls : Nat) :
    ∃ visits calls', (fsys (backend hashes)).walkDir (depth + 1) (nameOf path) info envs
        ⟨objects, calls⟩ = some (.ok visits, ⟨objects, calls'⟩) ∧
      Walked objects (Reaches path) visits := by
  obtain ⟨turn, calls₁, entries, hread, hperm⟩ :=
    readDir_spec hashes envs calls hkeys hpath h
  have hchild : ∀ entry ∈ entries, ChildOf objects path entry :=
    fun entry hentry ↦ childOf_of_mem hkeys hvalid hunmixed (hperm.mem_iff.mp hentry)
  have hnodup : (entries.map fun entry ↦ entry.path.value).Nodup :=
    (hperm.map _).nodup_iff.mpr (nodup_sortedEntries hkeys 0)
  obtain ⟨visits, calls₂, heach, hwalked⟩ := walkEach_spec hashes hchild hnodup
    (fun entry hentry calls ↦ by
      obtain ⟨visits, calls', hvisits, hwalked⟩ := hwalk entry (hchild entry hentry) calls
      exact ⟨visits, calls', hvisits,
        hwalked.mono
          (fun name ↦ (reaches_iff_of_normalForm (hchild entry hentry).normalForm name).mp)
          fun key _ ↦ (reaches_iff_of_normalForm (hchild entry hentry).normalForm key).mpr⟩) calls₁
  refine ⟨(nameOf path, info) :: visits, calls₂, ?_, ?_⟩
  · have hisDir : (fsys (backend hashes)).isDir info = true := decide_eq_true hkind
    have hreadDir : (fsys (backend hashes)).readDir (nameOf path) =
      Iofs.readDir (backend hashes) (nameOf path) := rfl
    rw [WalkFS.walkDir, if_pos hisDir, Call.bind_apply, hreadDir, hread, Option.bind_some]
    dsimp only
    rw [Call.bind_apply, heach]
    rfl
  · have hself : Walked objects (· = nameOf path) [(nameOf path, info)] := by
      refine ⟨by simp, by simp, ?_, by simp⟩
      intro v hv
      rw [List.mem_singleton.mp hv]
      have hisDir : info.isDir = true := decide_eq_true hkind
      exact iff_of_false (by rw [hisDir]; decide) (notMem_of_directory hkeys h)
    refine (hself.append hwalked ?_).mono ?_ ?_
    · rintro name rfl ⟨entry, hentry, hnormal, hunder⟩
      exact not_isPrefix_nameOf hnormal ((hchild entry hentry).listedName_eq hunder).1
    · rintro name (rfl | ⟨entry, hentry, hnormal, hunder⟩)
      · exact .inl rfl
      · exact .inr ⟨hnormal, .inr ((hchild entry hentry).listedName_eq hunder).1⟩
    · rintro key hkey (rfl | ⟨hnormal, rfl | hpre⟩)
      · exact .inl rfl
      · exact absurd hkey (value_notMem_of_directory hkeys h)
      · obtain ⟨entry, hentry, hunder⟩ := exists_entry_of_mem hkeys hkey hpre
        exact .inr ⟨entry, hperm.mem_iff.mpr hentry, hnormal, hunder⟩

/-- A walk that is deep enough for every object under a path returns. -/
theorem walkDir_spec (hvalid : ValidKeys objects) (hunmixed : Hierarchical objects) (depth : Nat)
    {path : Path} (hpath : ioFSPath (nameOf path) = .ok path) {info : Info}
    (h : Denotes objects path info.metadata.kind)
    (hdepth : ∀ key ∈ objects, Under path key → key.length ≤ depth + path.value.length)
    (calls : Nat) : ∃ visits calls',
      (fsys (backend hashes)).walkDir (depth + 1) (nameOf path) info envs ⟨objects, calls⟩ =
        some (.ok visits, ⟨objects, calls'⟩) ∧ Walked objects (Reaches path) visits := by
  cases hkind : info.metadata.kind with
  | none =>
      rw [hkind] at h
      exact h.elim
  | file =>
      rw [hkind] at h
      exact ⟨_, _, walkDir_file hashes envs hkeys hunmixed h (by rw [Info.isDir, hkind]; decide)
        depth calls⟩
  | directory =>
      rw [hkind] at h
      refine walkDir_directory hashes envs hkeys hvalid hunmixed hpath hkind h
        (fun entry hchild ↦ ?_) calls
      have hbound : ∀ key ∈ objects, Under entry.path key →
          key.length ≤ depth + path.value.length :=
        fun key hkey hunder ↦ hdepth key hkey (.inr (hchild.listedName_eq hunder).1)
      have hlength := hchild.length_lt
      cases depth with
      | zero =>
          -- the object under the entry is longer than the path of the directory
          obtain ⟨key, hkey, hunder⟩ := hchild.exists_key
          have hkeyLength := hunder.length_le
          have := hbound key hkey hunder
          omega
      | succ depth =>
          refine walkDir_spec hvalid hunmixed depth hchild.accepted hchild.denotes ?_
          intro key hkey hunder
          have := hbound key hkey hunder
          omega

/-- The bridge over the in-memory adapter is closed under traversal: what
`ReadDir` lists is found by `Stat` with the same kind, and a walk from the root
that is deep enough visits every object once, as a file, and no other file. -/
theorem traversal_closed (hvalid : ValidKeys objects) (hunmixed : Hierarchical objects) :
    (∀ name envs calls infos s,
      Iofs.readDir (backend hashes) name envs ⟨objects, calls⟩ = some (.ok infos, s) →
      ∀ info ∈ infos, ∀ envs' calls', ∃ info' s',
        Iofs.stat (backend hashes) (PathName.join [name, info.name]) envs' ⟨objects, calls'⟩ =
          some (.ok info', s') ∧ info'.isDir = info.isDir) ∧
    ∃ bound, ∀ depth ≥ bound, ∀ envs calls, ∃ visits s,
      (fsys (backend hashes)).walk depth PathName.current envs ⟨objects, calls⟩ =
        some (.ok visits, s) ∧
      (visits.map Prod.fst).Nodup ∧
      ∀ name, name ∈ objects ↔ ∃ info, (name, info) ∈ visits ∧ info.isDir = false := by
  constructor
  · intro name envs calls infos s hread info hinfo envs' calls'
    obtain ⟨path, hpath, hdirectory⟩ := readDir_ensures hashes envs calls hkeys name _ _
      hread infos rfl
    obtain rfl := nameOf_of_ioFSPath hpath
    obtain ⟨turn, calls₁, entries, hentries, hperm⟩ :=
      readDir_spec hashes envs calls hkeys hpath hdirectory
    rw [hentries] at hread
    obtain ⟨hinfos, -⟩ := Prod.mk.inj (Option.some.inj hread)
    rw [← Except.ok.inj hinfos] at hinfo
    obtain ⟨entry, hentry, rfl⟩ := List.mem_map.mp hinfo
    have hchild := childOf_of_mem hkeys hvalid hunmixed (hperm.mem_iff.mp hentry)
    obtain ⟨info', calls₂, hkind, hstat⟩ :=
      stat_spec hashes envs' calls' hkeys hchild.accepted hchild.denotes
    rw [hchild.join_eq]
    refine ⟨info', _, hstat, ?_⟩
    rw [Info.isDir, Info.isDir, hkind]
    rfl
  · refine ⟨objects.keys.sup List.length + 1, fun depth hdepth envs calls ↦ ?_⟩
    obtain ⟨depth, rfl⟩ := Nat.exists_eq_succ_of_ne_zero (Nat.ne_of_gt (by omega : 0 < depth))
    have hroot : ioFSPath (nameOf .root) = .ok .root := rfl
    have hdirectory : Denotes objects .root .directory := .inl rfl
    obtain ⟨info, calls₁, hkind, hstat⟩ := stat_spec hashes envs calls hkeys hroot hdirectory
    have hbound : ∀ key ∈ objects, Under .root key →
        key.length ≤ depth + Path.root.value.length := by
      intro key hkey _
      have hsup := Finset.le_sup (f := List.length) (Finmap.mem_keys.mpr hkey)
      omega
    obtain ⟨visits, calls₂, hvisits, hwalked⟩ := walkDir_spec hashes envs hkeys hvalid hunmixed
      depth hroot (hkind ▸ hdirectory) hbound calls₁
    refine ⟨visits, ⟨objects, calls₂⟩, ?_, hwalked.nodup, fun name ↦ ⟨?_, ?_⟩⟩
    · have hfsys : (fsys (backend hashes)).stat = Iofs.stat (backend hashes) := rfl
      have hname : PathName.current = nameOf .root := rfl
      rw [WalkFS.walk, Call.bind_apply, hfsys, hname, hstat, Option.bind_some]
      exact hvisits
    · intro hname
      obtain ⟨stored, hl⟩ := Finmap.mem_iff.mp hname
      obtain ⟨v, hv, rfl⟩ := List.mem_map.mp
        (hwalked.complete name hname (.inr ⟨hkeys _ _ hl, .inr List.nil_prefix⟩))
      exact ⟨v.2, hv, (hwalked.isDir v hv).mpr hname⟩
    · rintro ⟨info, hv, hfile⟩
      exact (hwalked.isDir _ hv).mp hfile

end Walk

def singleObject (name : Str) : Objects :=
  new.insert name ⟨.lit "x", none, [], .visibilityPrivate, 0⟩

theorem mem_singleObject {name key : Str} : key ∈ singleObject name ↔ key = name := by
  rw [singleObject, Finmap.mem_insert]
  exact or_iff_left Finmap.notMem_empty

theorem keysValid_singleObject {name : Str} (h : NormalForm name) :
    KeysValid (singleObject name) := by
  intro key stored hl
  rw [mem_singleObject.mp (Finmap.mem_iff.mpr ⟨stored, hl⟩)]
  exact h

theorem hierarchical_singleObject (name : Str) : Hierarchical (singleObject name) := by
  intro key rest hkey hrest
  exact (lt_append_slash key rest).ne' ((mem_singleObject.mp hrest).trans
    (mem_singleObject.mp hkey).symm)

/-- The walk over one object in a directory. -/
theorem singleObject_walk :
    ∃ depth visits s,
      (fsys (backend ⟨id, id, fun _ ↦ 0⟩)).walk depth PathName.current
        (fun _ ↦ visiting (KeyOrder.increasing Str).toIterOrder) ⟨singleObject (.lit "a/b"), 0⟩ =
          some (.ok visits, s) ∧
      ∃ info, (Str.lit "a/b", info) ∈ visits ∧ info.isDir = false := by
  have hvalid : ValidKeys (singleObject (.lit "a/b")) := by
    intro key hkey
    rw [mem_singleObject.mp hkey]
    decide
  obtain ⟨-, bound, hwalk⟩ := traversal_closed ⟨id, id, fun _ ↦ 0⟩
    (keysValid_singleObject (by decide)) hvalid (hierarchical_singleObject (.lit "a/b"))
  obtain ⟨visits, s, hvisits, -, hfiles⟩ := hwalk bound le_rfl
    (fun _ ↦ visiting (KeyOrder.increasing Str).toIterOrder) 0
  exact ⟨bound, visits, s, hvisits, (hfiles _).mp (mem_singleObject.mpr rfl)⟩

/-- `ReadDir` of the root lists an object whose key is one segment. -/
theorem readDir_root (hashes : Hashes) (order : IterOrder Str) (hkeys : KeysValid objects)
    {key : Str} (hkey : key ∈ objects) (hslash : slash ∉ key) :
    ∃ infos s entry,
      Iofs.readDir (backend hashes) PathName.current (fun _ ↦ visiting order) ⟨objects, 0⟩ =
        some (.ok infos, s) ∧
      infoOf entry ∈ infos ∧ (infoOf entry).name = key ∧
      (listing order [] false objects).lookup key = some entry := by
  have hroot : ioFSPath (nameOf .root) = .ok .root := rfl
  obtain ⟨turn, calls, entries, hread, hperm⟩ :=
    readDir_spec hashes (fun _ ↦ visiting order) 0 hkeys hroot (.inl rfl)
  have hlisted : key ∈ listing order [] false objects :=
    (mem_listing hkeys).mpr ⟨key, hkey, List.nil_prefix, listedName_child hslash false⟩
  obtain ⟨entry, hentry⟩ := Finmap.mem_iff.mp hlisted
  have hshown : key ∈ shown 0 ((listedNames [] false objects).sort (· ≤ ·)) := by
    rw [shown, if_pos rfl, Finset.mem_sort, ← keys_listing order hkeys, Finmap.mem_keys]
    exact hlisted
  refine ⟨entries.map infoOf, _, entry, hread, ?_, ?_, hentry⟩
  · exact List.mem_map_of_mem (hperm.mem_iff.mpr
      ((mem_sortedEntries hkeys).mpr ⟨key, hshown, hentry⟩))
  · obtain ⟨stored, hl⟩ := Finmap.mem_iff.mp hkey
    unfold infoOf Path.base
    rw [(file_or_directory hkeys hentry).1]
    exact PathName.base_append (.inl rfl) hslash (hkeys _ _ hl).ne_nil

/-- A key that is not valid UTF-8 is listed but not found, and an object that is
also a directory may be listed as a directory but is found as a file. -/
theorem traversal_not_closed :
    let envs : Nat → Env := fun _ ↦ visiting (KeyOrder.increasing Str).toIterOrder
    (∃ infos s, Iofs.readDir (backend ⟨id, id, fun _ ↦ 0⟩) PathName.current envs
        ⟨singleObject [0xff], 0⟩ = some (.ok infos, s) ∧
      ∃ info ∈ infos, ∃ err s', Iofs.stat (backend ⟨id, id, fun _ ↦ 0⟩)
        (PathName.join [PathName.current, info.name]) envs ⟨singleObject [0xff], 0⟩ =
          some (.error err, s')) ∧
    ∃ infos s, Iofs.readDir (backend ⟨id, id, fun _ ↦ 0⟩) PathName.current envs
        ⟨objectAndDirectory, 0⟩ = some (.ok infos, s) ∧
      ∃ info ∈ infos, info.isDir = true ∧ ∃ info' s', Iofs.stat (backend ⟨id, id, fun _ ↦ 0⟩)
        (PathName.join [PathName.current, info.name]) envs ⟨objectAndDirectory, 0⟩ =
          some (.ok info', s') ∧ info'.isDir = false := by
  intro envs
  constructor
  · have hnormal : NormalForm [0xff] := by decide
    obtain ⟨infos, s, entry, hread, hinfo, hname, -⟩ := readDir_root ⟨id, id, fun _ ↦ 0⟩
      (KeyOrder.increasing Str).toIterOrder (keysValid_singleObject hnormal)
      (mem_singleObject.mpr rfl) (by decide)
    refine ⟨infos, s, hread, _, hinfo, ?_⟩
    rw [hname, hnormal.join_current]
    exact ⟨_, _, rfl⟩
  · have hmem : Str.lit "a" ∈ objectAndDirectory := by decide
    have hslash : slash ∉ Str.lit "a" := by decide
    obtain ⟨infos, s, entry, hread, hinfo, hname, hentry⟩ := readDir_root ⟨id, id, fun _ ↦ 0⟩
      (KeyOrder.increasing Str).toIterOrder keysValid_objectAndDirectory hmem hslash
    have hnested : [] ++ Str.lit "a" ++ slash :: Str.lit "b" ∈ objectAndDirectory := by decide
    have hkind := kind_of_increasing keysValid_objectAndDirectory hslash hnested hentry
    have hnormal : NormalForm (.lit "a") := by decide
    let path : Path := ⟨.lit "a", .inr hnormal⟩
    have haccepted : ioFSPath (nameOf path) = .ok path := ioFSPath_of_normalForm hnormal (by decide)
    have hdenotes : Denotes objectAndDirectory path .file := hmem
    obtain ⟨info, calls, hfile, hstat⟩ := stat_spec ⟨id, id, fun _ ↦ 0⟩ envs 0
      keysValid_objectAndDirectory haccepted hdenotes
    refine ⟨infos, s, hread, _, hinfo, decide_eq_true hkind, info,
      ⟨objectAndDirectory, calls⟩, ?_, ?_⟩
    · rw [hname, hnormal.join_current]
      exact hstat
    · rw [Info.isDir, hfile]
      decide

end GoFilesystem.Memory
