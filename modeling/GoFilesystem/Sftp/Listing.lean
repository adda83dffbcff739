import GoFilesystem.Remote.Search
import GoFilesystem.Sftp.Remote

/-!
# Listing with the SFTP adapter

What `List` does with the answers of a server that has no faults.
-/

namespace GoFilesystem.Sftp

open Go Conc Posix Remote PathName

variable {a : Adapter} {random : Str} {t : Tid} {w : State × Outside} {ctx : Ctx} {P live : Prop}

/-- The server answers the requests of `list`. -/
theorem reads (hlive : live → P) (hroot : IsRoot a.root) :
    runs.Reads (serves false random) Outside.toServer (fun _ ↦ True) P live t a.root ctx := by
  intro session w current hw
  refine Client.Runs.ensures_request (assumes (fun _ ↦ rfl) hlive) (fun _ _ ↦ rfl) (fun _ ↦ ?_)
    (fun r s v hs hserves ↦ ⟨hs, ?_⟩) hw
  · obtain ⟨r, server, hr⟩ := (terms false).exists_lists (elements (a.remotePath current))
      w.2.toServer (.sentinel .notExist) rfl
    exact ⟨r, { w.2 with toServer := server }, .inl ⟨server, rfl, hr⟩⟩
  rcases hserves with ⟨server, rfl, hlists⟩ | ⟨hdone, rfl, err, rfl, hconnection⟩
  · have hlists : (terms false).Lists (elements (remoteName a.root current)) w.2.toServer r
        server := hlists
    rw [elements_remoteName hroot] at hlists
    cases r with
    | error err => exact ⟨(hlists.2 rfl).2, hlists.1, fun _ ↦ (hlists.2 rfl).1⟩
    | ok children => exact hlists.2
  · exact ⟨hconnection, rfl, fun hl ↦ absurd (hs (hlive hl)).ctx_eq hdone⟩

theorem ensures_list (hlive : live → P) (ha : a.Valid) (directory : Path) (options : ListOptions)
    (hoptions : live → 0 ≤ options.limit)
    (hdirectory : live → w.2.tree.lookup (location a.root directory) = some .directory)
    (hlistings : w.2.listings = []) (hw : P → Idle ctx false w.1) :
    Ensures (answers false random t) live (list a ctx directory options) w
      fun r (w' : State × Outside) ↦ Searched live a.root w.2.tree options.recursive
        (effectiveListLimit options.limit a.maxList) directory w'.2.toServer r := by
  unfold list
  split
  · exact fun hl ↦ absurd (hoptions hl) (by omega)
  refine Ensures.bind (Client.Runs.ensures_list (served false random) (assumes (fun _ ↦ rfl) hlive)
    (reads hlive ha.isRoot) (fun _ ↦ rfl) (effectiveListLimit_pos (by omega) ha.maxList) hdirectory
    hlistings hw) ?_
  rintro (err | entries) w₁ h₁
  · exact h₁.2
  · exact h₁.2

end GoFilesystem.Sftp
