import GoFilesystem.Ftp.Remote
import GoFilesystem.Remote.Search

/-!
# Listing with the FTP adapter

What `List` does with the answers of a server that has no faults.
-/

namespace GoFilesystem.Ftp

open Go Conc Posix Remote PathName

variable {a : Adapter} {random : Str} {t : Tid} {w : State × Server} {ctx : Ctx} {P live : Prop}

/-- The server answers the requests of `list`. -/
theorem reads (hlive : live → P) (hroot : IsRoot a.root) :
    runs.Reads (fun _ ↦ serves false random) id (fun s ↦ s.opMu.isSome = true) P live t a.root
      ctx := by
  intro session w current hw
  have ha := assumes true (fun _ : P ↦ (rfl : false = false)) hlive
  refine (Client.Runs.ensures_ctxErr (served false random) ha hw).check ?_ ?_
  · rintro err w₁ ⟨h₁, hr⟩
    exact ⟨h₁.idle, by cases err <;> rfl, h₁.outside, fun hl ↦ nomatch hr (hlive hl)⟩
  rintro w₁ ⟨h₁, -⟩
  rw [← h₁.outside]
  refine Client.Runs.ensures_request ha (fun _ _ ↦ rfl) (fun _ ↦ ?_)
    (fun r s v hs hlists ↦ ⟨hs, ?_⟩) h₁.idle
  · exact (terms false).exists_lists (elements (a.remotePath current)) w₁.2
      (.sentinel .fileUnavailable) rfl
  · have hlists : (terms false).Lists (elements (remoteName a.root current)) w₁.2 r v := hlists
    rw [elements_remoteName hroot] at hlists
    cases r with
    | error err => exact ⟨(hlists.2 rfl).2, hlists.1, fun _ ↦ (hlists.2 rfl).1⟩
    | ok children => exact hlists.2

theorem ensures_list (hlive : live → P) (ha : a.Valid) (directory : Path) (options : ListOptions)
    (hoptions : live → 0 ≤ options.limit)
    (hdirectory : live → w.2.tree.lookup (location a.root directory) = some .directory)
    (hlistings : w.2.listings = []) (hw : P → Idle ctx false false w.1) :
    Ensures (answers false random t) live (list a ctx directory options) w
      fun r (w' : State × Server) ↦ Searched live a.root w.2.tree options.recursive
        (effectiveListLimit options.limit a.maxList) directory w'.2 r := by
  unfold list
  split
  · exact fun hl ↦ absurd (hoptions hl) (by omega)
  refine Ensures.bind (K := fun r (w' : State × Server) ↦ Searched live a.root w.2.tree
    options.recursive (effectiveListLimit options.limit a.maxList) directory w'.2 r) ?_ ?_
  · refine (ensures_opLock (fun _ ↦ rfl) hlive hw).bind fun _ w₁ h₁ ↦ ?_
    rw [← h₁.outside] at hdirectory hlistings ⊢
    refine (Client.Runs.ensures_list (served false random) (assumes true (fun _ ↦ rfl) hlive)
      (reads hlive ha.isRoot) (fun _ ↦ rfl) (effectiveListLimit_pos (by omega) ha.maxList)
      hdirectory hlistings h₁.idle).bind fun r w₂ h₂ ↦ ?_
    refine (ensures_opUnlock (fun _ ↦ rfl) hlive h₂.1).bind fun _ w₃ h₃ ↦ ?_
    rw [← h₃.outside] at h₂
    exact h₂.2
  · rintro (err | entries) w₁ h₁
    · exact h₁
    · exact h₁

end GoFilesystem.Ftp
