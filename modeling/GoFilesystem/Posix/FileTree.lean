import GoFilesystem.Go.Map
import GoFilesystem.Go.Str
import Mathlib.Data.Finset.Preimage

/-!
# Directories and files

What a server keeps: directories and files, each at a location, the names on the way
to it from the root.  The tree carries the proof that every location is reached
through directories and that names are names: not empty, not a dot or two, without a
slash or a NUL.  There are no links.

Operations are described by what stands at each location afterwards: `Sets` changes
one location, `Makes` adds directories, `Moves` takes a file from one location to
another.
-/

namespace GoFilesystem.Posix

open Go

/-- A name that a directory can hold. -/
structure IsName (name : Str) : Prop where
  ne_nil : name ≠ []
  ne_dot : name ≠ [dot]
  ne_parent : name ≠ [dot, dot]
  noSlash : slash ∉ name
  noNul : 0 ∉ name

instance (name : Str) : Decidable (IsName name) :=
  decidable_of_iff (name ≠ [] ∧ name ≠ [dot] ∧ name ≠ [dot, dot] ∧ slash ∉ name ∧ 0 ∉ name)
    ⟨fun h ↦ ⟨h.1, h.2.1, h.2.2.1, h.2.2.2.1, h.2.2.2.2⟩,
      fun h ↦ ⟨h.ne_nil, h.ne_dot, h.ne_parent, h.noSlash, h.noNul⟩⟩

/-- The names from the root to an object. -/
abbrev Location := List Str

inductive Object where
  | directory
  | file (content : Str)
deriving DecidableEq

structure FileTree where
  objects : GoMap Location Object
  root : [] ∉ objects
  isName : ∀ l name, l ++ [name] ∈ objects → IsName name
  parent : ∀ l name, l ++ [name] ∈ objects → l = [] ∨ objects.lookup l = some .directory

namespace FileTree

def empty : FileTree where
  objects := ∅
  root := Finmap.notMem_empty
  isName _ _ h := absurd h Finmap.notMem_empty
  parent _ _ h := absurd h Finmap.notMem_empty

variable (tree : FileTree) {tree' tree'' : FileTree} {l l' : Location} {name : Str}

def lookup (l : Location) : Option Object :=
  if l = [] then some .directory else tree.objects.lookup l

theorem lookup_of_ne_nil (h : l ≠ []) : tree.lookup l = tree.objects.lookup l := if_neg h

theorem lookup_append (l : Location) (name : Str) :
    tree.lookup (l ++ [name]) = tree.objects.lookup (l ++ [name]) :=
  tree.lookup_of_ne_nil (by simp)

variable {tree}

theorem mem_of_lookup (h : tree.lookup (l ++ [name]) ≠ none) : l ++ [name] ∈ tree.objects := by
  rw [lookup_append] at h
  obtain ⟨object, hobject⟩ := Option.ne_none_iff_exists'.mp h
  exact Finmap.mem_of_lookup_eq_some hobject

theorem isName_of_lookup (h : tree.lookup (l ++ [name]) ≠ none) : IsName name :=
  tree.isName l name (mem_of_lookup h)

/-- What is somewhere is in a directory. -/
theorem lookup_parent (h : tree.lookup (l ++ [name]) ≠ none) : tree.lookup l = some .directory := by
  rcases tree.parent l name (mem_of_lookup h) with rfl | hl
  · rfl
  · rw [lookup_of_ne_nil _ ?_]
    · exact hl
    · rintro rfl
      exact tree.root (Finmap.mem_of_lookup_eq_some hl)

variable (tree) {hname : IsName name} {hdirectory : tree.lookup l = some .directory}
  {hnew : tree.lookup (l ++ [name]) = none} in
/-- The tree after a change at one location. -/
def Sets (l : Location) (x : Option Object) (tree' : FileTree) : Prop :=
  ∀ l', tree'.lookup l' = if l' = l then x else tree.lookup l'

/-- One more object in a directory. -/
def add (tree : FileTree) (l : Location) (name : Str) (object : Object) (hname : IsName name)
    (hdirectory : tree.lookup l = some .directory) (hnew : tree.lookup (l ++ [name]) = none) :
    FileTree where
  objects := tree.objects.insert (l ++ [name]) object
  root := by simpa using tree.root
  isName l' name' h := by
    rcases Finmap.mem_insert.mp h with heq | h
    · rw [(List.append_singleton_inj.mp heq).2]
      exact hname
    · exact tree.isName l' name' h
  parent l' name' h := by
    rcases Finmap.mem_insert.mp h with heq | h
    · obtain ⟨rfl, -⟩ := List.append_singleton_inj.mp heq
      by_cases hl : l' = []
      · exact .inl hl
      · rw [lookup_of_ne_nil _ hl] at hdirectory
        exact .inr ((Finmap.lookup_insert_of_ne _ (by simp)).trans hdirectory)
    · refine (tree.parent l' name' h).imp_right fun hparent ↦ ?_
      have hne : l' ≠ l ++ [name] := by
        rintro rfl
        rw [lookup_append] at hnew
        exact nomatch hnew.symm.trans hparent
      exact (Finmap.lookup_insert_of_ne _ hne).trans hparent

theorem sets_add {object : Object} :
    tree.Sets (l ++ [name]) (some object) (tree.add l name object hname hdirectory hnew) := by
  intro l'
  unfold lookup
  split_ifs with hnil heq heq
  · simp [hnil] at heq
  · rfl
  · rw [heq]
    exact Finmap.lookup_insert _
  · exact Finmap.lookup_insert_of_ne _ heq

/-- One object in place of another. -/
theorem sets_add_add {object object' : Object} :
    (tree.add l name object hname hdirectory hnew).Sets (l ++ [name]) (some object')
      (tree.add l name object' hname hdirectory hnew) := by
  intro l'
  rw [sets_add, sets_add]
  exact ite_congr rfl (fun _ ↦ rfl) fun hne ↦ (if_neg hne).symm

variable (tree) in
/-- The tree after directories have been made, on the way to a location or there. -/
def Makes (l : Location) (tree' : FileTree) : Prop :=
  ∀ l', tree'.lookup l' = tree.lookup l' ∨
    (tree.lookup l' = none ∧ tree'.lookup l' = some .directory ∧ l' <+: l)

variable (tree) in
def Moves (a b : Location) (tree' : FileTree) : Prop :=
  ∃ content, tree.lookup a = some (.file content) ∧ tree.lookup b ≠ some .directory ∧
    ∀ l, tree'.lookup l =
      if l = b then some (.file content) else if l = a then none else tree.lookup l

/-- A file under another name in its directory. -/
theorem moves_add {content : Str} {name' : Str} (hne : name' ≠ name) {hname' : IsName name'}
    {hnew' : tree.lookup (l ++ [name']) = none} :
    (tree.add l name (.file content) hname hdirectory hnew).Moves (l ++ [name]) (l ++ [name'])
      (tree.add l name' (.file content) hname' hdirectory hnew') := by
  refine ⟨content, (sets_add _).trans (if_pos rfl), ?_, fun l' ↦ ?_⟩
  · rw [sets_add, if_neg (by simpa using hne), hnew']
    exact nofun
  · rw [sets_add, sets_add]
    split_ifs with h₁ h₂
    · rfl
    · rw [h₂, hnew]
    · rfl

variable (tree) in
structure Lists (l : Location) (names : List Str) : Prop where
  nodup : names.Nodup
  mem_iff : ∀ name, name ∈ names ↔ tree.lookup (l ++ [name]) ≠ none

/-- Every directory can be listed. -/
theorem exists_lists (tree : FileTree) (l : Location) : ∃ names, tree.Lists l names := by
  have hinjective : Function.Injective fun name : Str ↦ l ++ [name] :=
    fun _ _ heq ↦ List.singleton_inj.mp (List.append_cancel_left heq)
  refine ⟨(tree.objects.keys.preimage _ hinjective.injOn).toList, Finset.nodup_toList _, ?_⟩
  intro name
  rw [Finset.mem_toList, Finset.mem_preimage, Finmap.mem_keys, lookup_append]
  exact Finmap.lookup_isSome.symm.trans Option.isSome_iff_ne_none

end FileTree

end GoFilesystem.Posix
