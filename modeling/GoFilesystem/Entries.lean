import GoFilesystem.Contracts
import GoFilesystem.Posix.FileTree

/-!
# The entries of a listing

What it means that a listing shows the files that were visited: there is one entry for
each of them, the path of the entry leads back to the file, and its kind and size are
those of the file.  Files are known by where they are, in whatever way an adapter
reaches them.
-/

namespace GoFilesystem

open Go Posix

/-- Whether an entry has the kind and the size of an object. -/
def Entry.Fits (entry : Entry) : Object → Prop
  | .directory => entry.kind = .directory
  | .file content => entry.kind = .file ∧ entry.size = content.length

section

variable {κ : Type} (locate : Path → κ) (Shows : κ → Entry → Prop)

/-- The path of an entry leads to a file, and the entry says what it is. -/
structure Entry.Identifies (entry : Entry) (k : κ) : Prop where
  locate_eq : locate entry.path = k
  shows : Shows k entry

/-- The entries identify the files that were visited, one each. -/
def IdentifyVisited (entries : List Entry) (visited : List κ) : Prop :=
  ∃ made, entries.Perm made ∧ List.Forall₂ (Entry.Identifies locate Shows) made visited

variable {locate Shows} {entries made : List Entry} {visited : List κ}

/-- Entries made of the visited files identify them if and only if the files are in
places that paths lead to. -/
theorem identifyVisited_iff {B : κ → Prop} (hlocate : ∀ path, B (locate path))
    (hperm : entries.Perm made) (hmade : List.Forall₂
      (fun entry k ↦ B k → entry.Identifies locate Shows k) made visited) :
    IdentifyVisited locate Shows entries visited ↔ ∀ k ∈ visited, B k := by
  constructor
  · rintro ⟨made', -, hmade'⟩
    clear hmade
    induction hmade' with
    | nil => exact fun k hk ↦ absurd hk List.not_mem_nil
    | cons hentry _ ih =>
        intro k hk
        rcases List.mem_cons.mp hk with rfl | hk
        · exact hentry.locate_eq ▸ hlocate _
        · exact ih k hk
  · intro hvisited
    refine ⟨made, hperm, ?_⟩
    clear hperm
    induction hmade with
    | nil => exact .nil
    | cons hentry _ ih =>
        refine .cons (hentry (hvisited _ List.mem_cons_self)) (ih ?_)
        exact fun k hk ↦ hvisited k (List.mem_cons_of_mem _ hk)

/-- Different visited files have different paths. -/
theorem IdentifyVisited.nodup (h : IdentifyVisited locate Shows entries visited)
    (hvisited : visited.Nodup) : (entries.map Entry.path).Nodup := by
  obtain ⟨made, hperm, hmade⟩ := h
  have hlocations : (made.map Entry.path).map locate = visited := by
    clear hperm hvisited
    induction hmade with
    | nil => rfl
    | cons hentry _ ih => simp only [List.map_cons, ih, hentry.locate_eq]
  have hnodup : (made.map Entry.path).Nodup := (hlocations ▸ hvisited).of_map _
  exact (hperm.map _).nodup_iff.mpr hnodup

end

end GoFilesystem
