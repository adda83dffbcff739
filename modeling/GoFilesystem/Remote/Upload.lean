import GoFilesystem.Remote.Names
import GoFilesystem.Remote.Server

/-!
# Uploads through a temporary file

`Write` of the two adapters for servers stores the source under a temporary name and
then renames it.  Until the rename takes effect, everything but the temporary file is as
before, up to directories on the way to the destination (`Staged`); from then on the
destination holds the source (`Published`).  A failing request may have taken effect, so
each kind of request is said to lead from one of the two to the same or to the next.
-/

namespace GoFilesystem.Remote

open Go Posix PathName

/-- Where the temporary file of a path is. -/
def temporaryLocation (root random : Str) (path : Path) : Location :=
  (location root path).dropLast ++ [temporaryName random]

structure Upload where
  directory : Location
  destination : Location
  temporary : Location
  ne : destination ≠ temporary

/-- A location is as before, unless a directory has been made there on the way to
another. -/
def Kept (directory : Location) (tree tree' : FileTree) (l : Location) : Prop :=
  tree'.lookup l = tree.lookup l ∨
    (tree.lookup l = none ∧ tree'.lookup l = some .directory ∧ l <+: directory)

/-- Everything but the temporary file is as before, up to directories. -/
def Staged (u : Upload) (tree tree' : FileTree) : Prop :=
  ∀ l, l ≠ u.temporary → Kept u.directory tree tree' l

/-- The destination holds the content, and everything but the temporary file is as
before, up to directories. -/
structure Published (u : Upload) (content : Str) (tree tree' : FileTree) : Prop where
  holds : tree'.lookup u.destination = some (.file content)
  others : ∀ l, l ≠ u.destination → l ≠ u.temporary → Kept u.directory tree tree' l

section Steps

variable {u : Upload} {directory l : Location} {content : Str} {x : Option Object}
  {tree tree' tree'' : FileTree}

theorem Kept.of_eq (h : Kept directory tree tree' l) (heq : tree''.lookup l = tree'.lookup l) :
    Kept directory tree tree'' l := by
  unfold Kept
  rw [heq]
  exact h

theorem Staged.refl (u : Upload) (tree : FileTree) : Staged u tree tree :=
  fun _ _ ↦ .inl rfl

theorem Staged.makes (h : Staged u tree tree') (hmakes : tree'.Makes u.directory tree'') :
    Staged u tree tree'' := by
  intro l hl
  rcases hmakes l with heq | ⟨hnone, hmade, hbegins⟩
  · exact (h l hl).of_eq heq
  · rcases h l hl with heq | ⟨-, hdirectory, -⟩
    · exact .inr ⟨heq ▸ hnone, hmade, hbegins⟩
    · cases hnone.symm.trans hdirectory

theorem Staged.sets (h : Staged u tree tree') (hsets : tree'.Sets u.temporary x tree'') :
    Staged u tree tree'' :=
  fun l hl ↦ (h l hl).of_eq ((hsets l).trans (if_neg hl))

theorem Staged.moves (h : Staged u tree tree')
    (htemporary : tree'.lookup u.temporary = some (.file content))
    (hmoves : tree'.Moves u.temporary u.destination tree'') : Published u content tree tree'' := by
  obtain ⟨moved, hfile, -, hlookup⟩ := hmoves
  obtain rfl : content = moved := Object.file.inj (Option.some.inj (htemporary.symm.trans hfile))
  refine ⟨(hlookup _).trans (if_pos rfl), fun l hl hne ↦ (h l hne).of_eq ?_⟩
  rw [hlookup, if_neg hl, if_neg hne]

theorem Published.sets (h : Published u content tree tree')
    (hsets : tree'.Sets u.temporary x tree'') : Published u content tree tree'' where
  holds := ((hsets _).trans (if_neg u.ne)).trans h.holds
  others l hl hl' := (h.others l hl hl').of_eq ((hsets l).trans (if_neg hl'))

end Steps

/-! ## What a write leaves -/

/-- What a write leaves, for a source that is complete or not: everything as before, or
the content at the destination, and that if it succeeded. -/
def Leaves (u : Upload) (content : Str) (complete succeeded : Prop) (tree tree' : FileTree) :
    Prop :=
  (¬succeeded ∧ Staged u tree tree') ∨ (complete ∧ Published u content tree tree')

/-- A write is atomic: the destination is as before or holds the complete content, and
does so if the write succeeded; one that exists is not changed unless writes replace
files; and nothing but the destination and the temporary file changes, up to directories
on the way. -/
structure Atomic (destination temporary : Location) (content : Str)
    (complete succeeded replaces : Prop) (tree tree' : FileTree) : Prop where
  holds : tree'.lookup destination = tree.lookup destination ∨
    (complete ∧ tree'.lookup destination = some (.file content))
  holds_of_succeeded : succeeded → complete ∧ tree'.lookup destination = some (.file content)
  eq_of_exists : ¬replaces → tree.lookup destination ≠ none →
    tree'.lookup destination = tree.lookup destination
  others : ∀ l, l ≠ destination → l ≠ temporary → Kept destination.dropLast tree tree' l

section Leaves

variable {u : Upload} {content : Str} {complete succeeded replaces : Prop}
  {tree tree' tree'' : FileTree}

theorem Leaves.mono {succeeded' : Prop} (hsucceeded : succeeded' → succeeded)
    (h : Leaves u content complete succeeded tree tree') :
    Leaves u content complete succeeded' tree tree' :=
  h.imp_left fun h ↦ ⟨fun hs ↦ h.1 (hsucceeded hs), h.2⟩

/-- A failed write removes its temporary file. -/
theorem Leaves.sets {x : Option Object} (h : Leaves u content complete False tree tree')
    (hsets : tree'.Sets u.temporary x tree'') : Leaves u content complete False tree tree'' :=
  h.imp (fun h ↦ ⟨h.1, h.2.sets hsets⟩) fun h ↦ ⟨h.1, h.2.sets hsets⟩

/-- The rename of a complete temporary file, which may have failed after it took
effect. -/
theorem Staged.rename (h : Staged u tree tree') (hcomplete : complete)
    (htemporary : tree'.lookup u.temporary = some (.file content))
    (hmoves : (¬succeeded ∧ tree'' = tree') ∨ tree'.Moves u.temporary u.destination tree'') :
    Leaves u content complete succeeded tree tree'' := by
  rcases hmoves with ⟨hfailed, rfl⟩ | hmoves
  · exact .inl ⟨hfailed, h⟩
  · exact .inr ⟨hcomplete, h.moves htemporary hmoves⟩

/-- A write that has come to nothing. -/
theorem Atomic.refl {destination temporary : Location} (hfailed : ¬succeeded) (tree : FileTree) :
    Atomic destination temporary content complete succeeded replaces tree tree :=
  ⟨.inl rfl, fun h ↦ absurd h hfailed, fun _ _ ↦ rfl, fun _ _ _ ↦ .inl rfl⟩

theorem Leaves.atomic (hdirectory : u.directory = u.destination.dropLast)
    (hdestination : u.destination ≠ []) (h : Leaves u content complete succeeded tree tree')
    (hexisting : replaces ∨ tree.lookup u.destination = none) :
    Atomic u.destination u.temporary content complete succeeded replaces tree tree' := by
  have hstaged (hkept : Kept u.directory tree tree' u.destination) :
      tree'.lookup u.destination = tree.lookup u.destination := by
    refine hkept.resolve_right fun hmade ↦ ?_
    have hlength := hmade.2.2.length_le
    have hpos := List.length_pos_of_ne_nil hdestination
    rw [hdirectory, List.length_dropLast] at hlength
    omega
  have hnot (hreplaces : ¬replaces) (hsome : tree.lookup u.destination ≠ none) :
      tree'.lookup u.destination = tree.lookup u.destination :=
    absurd (hexisting.resolve_left hreplaces) hsome
  rcases h with ⟨hfailed, hkept⟩ | ⟨hcomplete, hpublished⟩
  · exact ⟨.inl (hstaged (hkept _ u.ne)), fun h ↦ absurd h hfailed, hnot,
      fun l _ ↦ hdirectory ▸ hkept l⟩
  · exact ⟨.inr ⟨hcomplete, hpublished.holds⟩, fun _ ↦ ⟨hcomplete, hpublished.holds⟩, hnot,
      hdirectory ▸ hpublished.others⟩

end Leaves

/-! ## Requests -/

/-- A request to change something has taken effect or not, and has if it succeeded. -/
theorem Terms.Changes.cases {terms : Terms} {s s' : Server} {effect : FileTree → FileTree → Prop}
    {r : Option Err} (h : terms.Changes s effect r s') : ∃ tree, s' = { s with tree } ∧
      ((r ≠ none ∧ tree = s.tree) ∨ effect s.tree tree) := by
  obtain ⟨tree, rfl, h⟩ := h
  refine ⟨tree, rfl, ?_⟩
  cases r with
  | none => exact .inr h
  | some err =>
      rcases h.1 with heq | ⟨-, heffect⟩
      · exact .inl ⟨nofun, heq⟩
      · exact .inr heffect

structure Upload.Of (u : Upload) (root random : Str) (path : Path) : Prop where
  directory : elements (dir (remoteName root path)) = u.directory
  destination : elements (remoteName root path) = u.destination
  temporary : elements (join [dir (remoteName root path), temporaryName random]) = u.temporary

section Names

variable {root random : Str} {path : Path}

theorem location_ne_nil (root : Str) (hpath : path ≠ .root) : location root path ≠ [] :=
  List.append_ne_nil_of_right_ne_nil _ (Path.segments_ne_nil hpath)

def uploadOf (hne : location root path ≠ temporaryLocation root random path) : Upload :=
  ⟨(location root path).dropLast, location root path, temporaryLocation root random path, hne⟩

theorem of_uploadOf (hroot : IsRoot root) (hpath : path ≠ .root)
    (hne : location root path ≠ temporaryLocation root random path) :
    (uploadOf hne).Of root random path where
  directory := elements_dir_remoteName hroot hpath
  destination := elements_remoteName hroot path
  temporary := by
    have hplain : Plain (dir (remoteName root path)) := by
      rw [dir_remoteName hroot hpath]
      refine (plain_append_slash (a := [])).mpr ⟨plain_nil, plain_intercalate fun name hname ↦ ?_⟩
      exact plain_of_isName (isName_of_mem_location hroot path (List.mem_of_mem_dropLast hname)).1
    obtain ⟨hnil, hdot, -, hslash, -⟩ := isName_temporaryName random
    rw [elements_join (by simp [hplain, plain_of_isName (isName_temporaryName random)])]
    simp [elements_eq_singleton hslash hnil hdot, elements_dir_remoteName hroot hpath, uploadOf,
      temporaryLocation]

end Names

end GoFilesystem.Remote
