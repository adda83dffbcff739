import GoFilesystem.Posix.FileTree
import GoFilesystem.Remote.Session

/-!
# A server

A server keeps directories and files and answers requests about them.  What it may
answer is a relation, because it may fail: it is said here for one kind of request
after another, whatever protocol carries it.

Without faults, a request for something that is there is answered, and no error is
taken for a lost connection.  With faults, any request may fail before or after it has
taken effect, as long as nothing that exists is reported as missing.  A request to
change something may be refused in both cases, since there are many reasons to.
-/

namespace GoFilesystem.Remote

open Go Posix

/-- Whether a description fits an object. -/
def Describes (child : Child) : Object → Prop
  | .directory => child.directory = true ∧ child.link = false
  | .file content => child.directory = false ∧ child.link = false ∧ child.size = content.length

theorem Describes.noLink {child : Child} {object : Object} (h : Describes child object) :
    child.link = false := by
  cases object with
  | directory => exact h.2
  | file content => exact h.2.1

/-- The descriptions of what is in a directory, in some order. -/
structure Listing (tree : FileTree) (l : Location) (children : List Child) : Prop where
  lists : tree.Lists l (children.map Child.name)
  describes : ∀ child ∈ children, ∃ object,
    tree.lookup (l ++ [child.name]) = some object ∧ Describes child object

def describe (name : Str) : Object → Child
  | .directory => { name, directory := true }
  | .file content => { name, size := content.length }

theorem describes_describe (name : Str) (object : Object) :
    Describes (describe name object) object := by
  cases object with
  | directory => exact ⟨rfl, rfl⟩
  | file content => exact ⟨rfl, rfl, rfl⟩

@[simp] theorem name_describe (name : Str) (object : Object) :
    (describe name object).name = name := by
  cases object <;> rfl

theorem exists_listing (tree : FileTree) (l : Location) : ∃ children, Listing tree l children := by
  obtain ⟨names, hnames⟩ := tree.exists_lists l
  have hname (name : Str) (hmem : name ∈ names) : ∃ child : Child, child.name = name ∧
      ∃ object, tree.lookup (l ++ [name]) = some object ∧ Describes child object := by
    obtain ⟨object, hobject⟩ := Option.ne_none_iff_exists'.mp ((hnames.mem_iff name).mp hmem)
    exact ⟨describe name object, name_describe .., object, hobject, describes_describe ..⟩
  choose! child hchild hdescribes using hname
  have heq : (names.map child).map Child.name = names := by
    rw [List.map_map]
    exact (List.map_congr_left hchild).trans (List.map_id' names)
  refine ⟨names.map child, heq.symm ▸ hnames, fun c hc ↦ ?_⟩
  obtain ⟨name, hmem, rfl⟩ := List.mem_map.mp hc
  rw [hchild name hmem]
  exact hdescribes name hmem

structure Server where
  tree : FileTree
  /-- History: the answers to the requests to list a directory. -/
  listings : List (Location × List Child) := []
  /-- History: where an upload has begun. -/
  uploads : List Location := []

/-- Whether requests fail, and what the errors are taken for. -/
structure Terms where
  faults : Bool
  isNotFound : Err → Bool
  isConnectionError : Err → Bool

namespace Terms

variable (terms : Terms) (l : Location) (s : Server)

def Stats (r : Except Err Child) (s' : Server) : Prop :=
  s' = s ∧ match r with
    | .ok child => ∃ object, s.tree.lookup l = some object ∧ Describes child object
    | .error err => (s.tree.lookup l ≠ none → terms.isNotFound err = false) ∧
      (terms.faults = false → s.tree.lookup l = none ∧ terms.isNotFound err = true ∧
        terms.isConnectionError err = false)

def Lists (r : Except Err (List Child)) (s' : Server) : Prop :=
  match r with
  | .ok children => s.tree.lookup l = some .directory ∧ Listing s.tree l children ∧
    s' = { s with listings := s.listings ++ [(l, children)] }
  | .error err => s' = s ∧
    (terms.faults = false → s.tree.lookup l ≠ some .directory ∧
      terms.isConnectionError err = false)

/-- The answers to a request to change something. -/
def Changes (effect : FileTree → FileTree → Prop) (r : Option Err) (s' : Server) : Prop :=
  ∃ tree, s' = { s with tree } ∧ match r with
    | none => effect s.tree tree
    | some err => (tree = s.tree ∨ (terms.faults = true ∧ effect s.tree tree)) ∧
      (terms.faults = false → terms.isConnectionError err = false)

theorem exists_stats (err : Err) (hmissing : terms.isNotFound err = true)
    (hconnection : terms.isConnectionError err = false) : ∃ r, terms.Stats l s r s := by
  cases hlookup : s.tree.lookup l with
  | none =>
      refine ⟨.error err, rfl, fun hne ↦ absurd hlookup hne, fun _ ↦ ?_⟩
      exact ⟨hlookup, hmissing, hconnection⟩
  | some object => exact ⟨.ok (describe [] object), rfl, object, hlookup, describes_describe ..⟩

theorem exists_lists (err : Err) (hconnection : terms.isConnectionError err = false) :
    ∃ r s', terms.Lists l s r s' := by
  by_cases hlookup : s.tree.lookup l = some .directory
  · obtain ⟨children, hchildren⟩ := exists_listing s.tree l
    exact ⟨.ok children, _, hlookup, hchildren, rfl⟩
  · exact ⟨.error err, s, rfl, fun _ ↦ ⟨hlookup, hconnection⟩⟩

end Terms

end GoFilesystem.Remote
