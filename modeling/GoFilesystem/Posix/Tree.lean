import GoFilesystem.Go.Map
import GoFilesystem.Go.Str

/-!
# A tree of names

The names beneath one directory, each a directory or a regular file with its
inode.  Several names may share an inode.  A name is reached through the
directories above it, and the tree carries the proof that these exist.  The
operations are the atomic ones of a POSIX file system, with the errors that
decide what their callers do next.  Files are renamed here, not directories, and
there are no symbolic links.
-/

namespace GoFilesystem.Posix

open Go

inductive Node where
  | dir
  | file (ino : Nat)
deriving DecidableEq

inductive Errno where
  | noent
  | exist
  | notdir
  | isdir
  | notempty
  | inval
deriving DecidableEq

/-- The names above a name, the shortest first. -/
def ancestors (name : Str) : List Str :=
  (List.range name.length).filterMap fun i ↦
    if name[i]? = some slash then some (name.take i) else none

theorem mem_ancestors {a name : Str} : a ∈ ancestors name ↔ ∃ b, name = a ++ slash :: b := by
  unfold ancestors
  rw [List.mem_filterMap]
  constructor
  · rintro ⟨i, hi, h⟩
    obtain ⟨hslash, htake⟩ := Option.ite_none_right_eq_some.mp h
    obtain ⟨hlt, hget⟩ := List.getElem?_eq_some_iff.mp hslash
    refine ⟨name.drop (i + 1), ?_⟩
    rw [← Option.some.inj htake, ← hget, ← List.drop_eq_getElem_cons hlt, List.take_append_drop]
  · rintro ⟨b, rfl⟩
    refine ⟨a.length, List.mem_range.mpr (by simp), ?_⟩
    rw [if_pos (by simp), List.take_left]

theorem notMem_ancestors_self (name : Str) : name ∉ ancestors name := by
  intro h
  obtain ⟨b, hb⟩ := mem_ancestors.mp h
  have hlen := congrArg List.length hb
  rw [List.length_append, List.length_cons] at hlen
  omega

theorem ancestors_append_slash {a b : Str} (hb : slash ∉ b) {x : Str} :
    x ∈ ancestors (a ++ slash :: b) ↔ x ∈ ancestors a ∨ x = a := by
  rw [mem_ancestors, mem_ancestors]
  constructor
  · rintro ⟨c, h⟩
    rcases List.append_eq_append_iff.mp h with ⟨u, rfl, hu⟩ | ⟨u, rfl, hu⟩
    · rcases u with _ | ⟨y, u⟩
      · exact .inr (List.append_nil _)
      · obtain ⟨-, rfl⟩ := List.cons.inj hu
        simp at hb
    · rcases u with _ | ⟨y, u⟩
      · exact .inr (List.append_nil _).symm
      · obtain ⟨rfl, -⟩ := List.cons.inj hu
        exact .inl ⟨u, rfl⟩
  · rintro (⟨c, rfl⟩ | rfl)
    · exact ⟨c ++ slash :: b, by simp⟩
    · exact ⟨b, rfl⟩

structure Tree where
  entries : GoMap Str Node
  /-- The next inode. -/
  next : Nat
  bound : ∀ name ino, entries.lookup name = some (.file ino) → ino < next
  parents : ∀ name node, entries.lookup name = some node →
    ∀ a ∈ ancestors name, entries.lookup a = some .dir

namespace Tree

def empty : Tree where
  entries := ∅
  next := 0
  bound := nofun
  parents := nofun

variable (tree : Tree) {name a b x : Str} {node : Node} {ino : Nat} {e : Errno}

def lookup (name : Str) : Option Node := tree.entries.lookup name

variable {tree} in
theorem notMem_ancestors_of_file (h : tree.lookup a = some (.file ino))
    (hname : tree.lookup name = some node) : a ∉ ancestors name := by
  intro ha
  have hdir := tree.parents name node hname a ha
  exact nomatch hdir.symm.trans h

/-- Give a name a meaning, unless it is a directory. -/
def set (name : Str) (node : Node) (hname : tree.lookup name ≠ some .dir)
    (hparents : ∀ a ∈ ancestors name, tree.lookup a = some .dir)
    (hbound : ∀ ino, node = .file ino → ino < tree.next) : Tree where
  entries := tree.entries.insert name node
  next := tree.next
  bound x ino h := by
    by_cases hx : x = name
    · rw [hx, Finmap.lookup_insert] at h
      exact hbound ino (Option.some.inj h)
    · rw [Finmap.lookup_insert_of_ne _ hx] at h
      exact tree.bound x ino h
  parents x y h a ha := by
    have hdir : tree.lookup a = some .dir := by
      by_cases hx : x = name
      · exact hparents a (hx ▸ ha)
      · rw [Finmap.lookup_insert_of_ne _ hx] at h
        exact tree.parents x y h a ha
    have hne : a ≠ name := fun heq ↦ hname (heq ▸ hdir)
    rw [Finmap.lookup_insert_of_ne _ hne]
    exact hdir

/-- Forget a name that is above no other. -/
def unset (name : Str) (hleaf : ∀ x y, tree.lookup x = some y → name ∉ ancestors x) : Tree where
  entries := tree.entries.erase name
  next := tree.next
  bound x ino h := by
    by_cases hx : x = name
    · rw [hx, Finmap.lookup_erase] at h
      contradiction
    · rw [Finmap.lookup_erase_ne hx] at h
      exact tree.bound x ino h
  parents x y h a ha := by
    by_cases hx : x = name
    · rw [hx, Finmap.lookup_erase] at h
      contradiction
    · rw [Finmap.lookup_erase_ne hx] at h
      have hne : a ≠ name := fun heq ↦ hleaf x y h (heq ▸ ha)
      rw [Finmap.lookup_erase_ne hne]
      exact tree.parents x y h a ha

theorem lookup_set (hname : tree.lookup name ≠ some .dir)
    (hparents : ∀ a ∈ ancestors name, tree.lookup a = some .dir)
    (hbound : ∀ ino, node = .file ino → ino < tree.next) (x : Str) :
    (tree.set name node hname hparents hbound).lookup x =
      if x = name then some node else tree.lookup x := by
  split
  · rename_i hx
    rw [hx]
    exact Finmap.lookup_insert _
  · exact Finmap.lookup_insert_of_ne _ ‹_›

theorem lookup_unset (hleaf : ∀ x y, tree.lookup x = some y → name ∉ ancestors x) (x : Str) :
    (tree.unset name hleaf).lookup x = if x = name then none else tree.lookup x := by
  split
  · rename_i hx
    rw [hx]
    exact Finmap.lookup_erase _ _
  · exact Finmap.lookup_erase_ne ‹_›

/-- The error of reaching the directory of a name. -/
def walk (name : Str) : Option Errno :=
  if name = [] then some .inval
  else (ancestors name).findSome? fun a ↦
    match tree.lookup a with
    | none => some .noent
    | some (.file _) => some .notdir
    | some .dir => none

variable {tree}

theorem dir_of_walk (h : tree.walk name = none) :
    ∀ a ∈ ancestors name, tree.lookup a = some .dir := by
  intro a ha
  unfold walk at h
  split at h
  · contradiction
  · have hnone := List.findSome?_eq_none_iff.mp h a ha
    split at hnone
    · contradiction
    · contradiction
    · assumption

theorem walk_of_dir (hname : name ≠ []) (h : ∀ a ∈ ancestors name, tree.lookup a = some .dir) :
    tree.walk name = none := by
  unfold walk
  rw [if_neg hname, List.findSome?_eq_none_iff]
  intro a ha
  rw [h a ha]

variable (tree)

/-- `stat`. -/
def stat (name : Str) : Except Errno Node :=
  match tree.walk name with
  | some e => .error e
  | none =>
    match tree.lookup name with
    | none => .error .noent
    | some node => .ok node

variable {tree} in
theorem lookup_of_stat (h : tree.stat name = .ok node) : tree.lookup name = some node := by
  unfold stat at h
  split at h
  · contradiction
  · split at h
    · contradiction
    · rename_i hlookup
      rw [hlookup, Except.ok.inj h]

/-- A step of `MkdirAll`, content with a directory that is there.  The last directory is
made before it is looked at, the others are opened. -/
def mkdir (name : Str) (final : Bool) : Except Errno Tree :=
  match hwalk : tree.walk name with
  | some e => .error e
  | none =>
    match hname : tree.lookup name with
    | some .dir => .ok tree
    | some (.file _) => .error (if final then .exist else .notdir)
    | none => .ok (tree.set name .dir (by simp [hname]) (dir_of_walk hwalk) nofun)

/-- `open` with `O_CREAT` and `O_EXCL`: the new file has the inode `tree.next`. -/
def create (name : Str) : Except Errno Tree :=
  match hwalk : tree.walk name with
  | some e => .error e
  | none =>
    match hname : tree.lookup name with
    | some _ => .error .exist
    | none =>
      let grown := { tree with
        next := tree.next + 1
        bound := fun x ino h ↦ Nat.lt_succ_of_lt (tree.bound x ino h) }
      .ok (grown.set name (.file tree.next) (fun h ↦ nomatch hname.symm.trans h)
        (dir_of_walk hwalk) (fun _ h ↦ Node.file.inj h ▸ Nat.lt_succ_self _))

/-- `link`. -/
def link (a b : Str) : Except Errno Tree :=
  match hstat : tree.stat a with
  | .error e => .error e
  | .ok .dir => .error .isdir
  | .ok (.file ino) =>
    match hwalk : tree.walk b with
    | some e => .error e
    | none =>
      match hb : tree.lookup b with
      | some _ => .error .exist
      | none =>
        .ok (tree.set b (.file ino) (by simp [hb]) (dir_of_walk hwalk)
          (fun _ h ↦ Node.file.inj h ▸ tree.bound a ino (lookup_of_stat hstat)))

def move (a b : Str) (ha : tree.lookup a = some (.file ino)) (hb : tree.lookup b ≠ some .dir)
    (hparents : ∀ x ∈ ancestors b, tree.lookup x = some .dir) : Tree :=
  (tree.unset a fun _ _ ↦ notMem_ancestors_of_file ha).set b (.file ino)
    (by
      rw [lookup_unset]
      split
      · simp
      · exact hb)
    (by
      intro x hx
      have hdir := hparents x hx
      have hne : x ≠ a := by
        rintro rfl
        exact nomatch ha.symm.trans hdir
      rw [lookup_unset, if_neg hne]
      exact hdir)
    (fun _ h ↦ Node.file.inj h ▸ tree.bound a ino ha)

theorem lookup_move (ha : tree.lookup a = some (.file ino)) (hb : tree.lookup b ≠ some .dir)
    (hparents : ∀ x ∈ ancestors b, tree.lookup x = some .dir) (x : Str) :
    (tree.move a b ha hb hparents).lookup x =
      if x = b then some (.file ino) else if x = a then none else tree.lookup x := by
  unfold move
  rw [lookup_set, lookup_unset]

/-- `Rename` of a file. -/
def rename (a b : Str) : Except Errno Tree :=
  match hstat : tree.stat a with
  | .error e => .error e
  | .ok .dir => .error .isdir
  | .ok (.file ino) =>
    match hwalk : tree.walk b with
    | some e => .error e
    | none =>
      if hdir : tree.lookup b = some .dir then .error .exist
      else if tree.lookup b = some (.file ino) then .ok tree
      else .ok (tree.move a b (lookup_of_stat hstat) hdir (dir_of_walk hwalk))

/-- `renameat2` of a file, with `RENAME_NOREPLACE`. -/
def renameNoReplace (a b : Str) : Except Errno Tree :=
  match tree.walk a with
  | some e => .error e
  | none =>
    match hwalk : tree.walk b with
    | some e => .error e
    | none =>
      match ha : tree.lookup a with
      | none => .error .noent
      | some .dir => .error .isdir
      | some (.file _) =>
        match hb : tree.lookup b with
        | some _ => .error .exist
        | none => .ok (tree.move a b ha (by simp [hb]) (dir_of_walk hwalk))

/-- `unlink`, or `rmdir` for a directory. -/
def remove (a : Str) : Except Errno Tree :=
  match hstat : tree.stat a with
  | .error e => .error e
  | .ok (.file _) => .ok (tree.unset a fun _ _ ↦ notMem_ancestors_of_file (lookup_of_stat hstat))
  | .ok .dir =>
    if hleaf : ∀ x ∈ tree.entries.keys, a ∉ ancestors x then
      .ok (tree.unset a fun x _ h ↦ hleaf x (Finmap.mem_keys.mpr (Finmap.mem_of_lookup_eq_some h)))
    else .error .notempty

/-! ## What the operations do -/

section Effects

variable {tree} {tree' : Tree}

theorem lookup_mkdir {final : Bool} (h : tree.mkdir name final = .ok tree') :
    tree'.next = tree.next ∧
    (∀ ino, tree.lookup name ≠ some (.file ino)) ∧
      ∀ x, tree'.lookup x = if x = name then some .dir else tree.lookup x := by
  unfold mkdir at h
  split at h
  · contradiction
  · split at h
    · rename_i hname
      cases h
      refine ⟨rfl, by simp [hname], fun x ↦ ?_⟩
      split
      · rename_i hx
        rw [hx, hname]
      · rfl
    · contradiction
    · rename_i hname
      cases h
      exact ⟨rfl, by simp [hname], lookup_set _ _ _ _⟩

theorem lookup_create (h : tree.create name = .ok tree') : tree'.next = tree.next + 1 ∧
    tree.lookup name = none ∧
      ∀ x, tree'.lookup x = if x = name then some (.file tree.next) else tree.lookup x := by
  unfold create at h
  split at h
  · contradiction
  · split at h
    · contradiction
    · rename_i hname
      cases h
      exact ⟨rfl, hname, lookup_set _ _ _ _⟩

theorem lookup_link (h : tree.link a b = .ok tree') : tree'.next = tree.next ∧
    ∃ ino, tree.lookup a = some (.file ino) ∧ tree.lookup b = none ∧
      ∀ x, tree'.lookup x = if x = b then some (.file ino) else tree.lookup x := by
  unfold link at h
  split at h
  · contradiction
  · contradiction
  · rename_i ino hstat
    split at h
    · contradiction
    · split at h
      · contradiction
      · rename_i hb
        cases h
        exact ⟨rfl, ino, lookup_of_stat hstat, hb, lookup_set _ _ _ _⟩

theorem lookup_rename (h : tree.rename a b = .ok tree') : tree'.next = tree.next ∧
    ∃ ino, tree.lookup a = some (.file ino) ∧ tree.lookup b ≠ some .dir ∧
      ((tree.lookup b = some (.file ino) ∧ tree' = tree) ∨ ∀ x, tree'.lookup x =
        if x = b then some (.file ino) else if x = a then none else tree.lookup x) := by
  unfold rename at h
  split at h
  · contradiction
  · contradiction
  · rename_i ino hstat
    split at h
    · contradiction
    · split at h
      · contradiction
      · rename_i hdir
        split at h
        · cases h
          exact ⟨rfl, ino, lookup_of_stat hstat, hdir, .inl ⟨‹_›, rfl⟩⟩
        · cases h
          exact ⟨rfl, ino, lookup_of_stat hstat, hdir, .inr (lookup_move _ _ _ _)⟩

theorem lookup_renameNoReplace (h : tree.renameNoReplace a b = .ok tree') :
    tree'.next = tree.next ∧ ∃ ino, tree.lookup a = some (.file ino) ∧ tree.lookup b = none ∧
      ∀ x, tree'.lookup x =
        if x = b then some (.file ino) else if x = a then none else tree.lookup x := by
  unfold renameNoReplace at h
  split at h
  · contradiction
  · split at h
    · contradiction
    · split at h
      · contradiction
      · contradiction
      · rename_i ino ha
        split at h
        · contradiction
        · rename_i hb
          cases h
          exact ⟨rfl, ino, ha, hb, lookup_move _ _ _ _⟩

theorem lookup_remove (h : tree.remove a = .ok tree') : tree'.next = tree.next ∧
    ∀ x, tree'.lookup x = if x = a then none else tree.lookup x := by
  unfold remove at h
  split at h
  · contradiction
  · cases h
    exact ⟨rfl, lookup_unset _ _⟩
  · split at h
    · cases h
      exact ⟨rfl, lookup_unset _ _⟩
    · contradiction

end Effects

/-! ## When the operations succeed -/

section Success

variable {tree}

theorem stat_of_lookup (hname : name ≠ []) (h : tree.lookup name = some node) :
    tree.stat name = .ok node := by
  unfold stat
  rw [walk_of_dir hname (tree.parents name node h), h]

/-- A link fails only because the new name is taken, if its directory exists. -/
theorem link_error (hname : a ≠ []) (ha : tree.lookup a = some (.file ino)) (hb : b ≠ [])
    (hparents : ∀ x ∈ ancestors b, tree.lookup x = some .dir) (h : tree.link a b = .error e) :
    e = .exist := by
  have hstat := stat_of_lookup hname ha
  have hwalk := walk_of_dir hb hparents
  unfold link at h
  split at h
  · rename_i hstat'
    exact nomatch hstat.symm.trans hstat'
  · rename_i hstat'
    exact nomatch hstat.symm.trans hstat'
  · split at h
    · rename_i hwalk'
      exact nomatch hwalk.symm.trans hwalk'
    · split at h
      · exact (Except.error.inj h).symm
      · contradiction

/-- A file can be removed. -/
theorem remove_file (hname : a ≠ []) (ha : tree.lookup a = some (.file ino)) :
    tree.remove a ≠ .error e := by
  have hstat := stat_of_lookup hname ha
  unfold remove
  split
  · rename_i hstat'
    exact nomatch hstat.symm.trans hstat'
  · exact nofun
  · rename_i hstat'
    exact nomatch hstat.symm.trans hstat'

theorem walk_error (h : tree.walk name = some e) : e = .noent ∨ e = .notdir ∨ e = .inval := by
  unfold walk at h
  split at h
  · exact .inr (.inr (Option.some.inj h).symm)
  · obtain ⟨x, -, hx⟩ := List.exists_of_findSome?_eq_some h
    split at hx
    · exact .inl (Option.some.inj hx).symm
    · exact .inr (.inl (Option.some.inj hx).symm)
    · exact nomatch hx

/-- Creating a file at a free name fails only because of its directory. -/
theorem create_error (ha : tree.lookup a = none) (h : tree.create a = .error e) :
    e = .noent ∨ e = .notdir ∨ e = .inval := by
  unfold create at h
  split at h
  · rename_i hwalk
    exact Except.error.inj h ▸ walk_error hwalk
  · split at h
    · rename_i ha'
      exact nomatch ha.symm.trans ha'
    · contradiction

end Success

end Tree

end GoFilesystem.Posix
