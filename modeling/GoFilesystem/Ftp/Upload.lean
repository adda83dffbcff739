import GoFilesystem.Ftp.Remote
import GoFilesystem.Remote.Upload

/-!
# `Write` of the FTP adapter on a server with faults

Every command of `Write` may fail, before or after it has taken effect, and contexts may
be done at any time.
-/

namespace GoFilesystem.Ftp

open Go Conc Posix Remote PathName Client.Runs

variable {a : Adapter} {faults : Bool} {random : Str} {t : Tid} {w : State × Server} {ctx : Ctx}

theorem inert_rejectLink (session : Session) (path : Path) (includeFinal : Bool) :
    Still (answers faults random t) Prod.snd (rejectLink a session path includeFinal) :=
  (served faults random).inert_rejectLinks session _

theorem inert_stat (path : Path) :
    Still (answers faults random t) Prod.snd (stat a ctx path) := by
  have hlocked : Still (answers faults random t) Prod.snd
      (withLockedResult ctx true (checkedStat a path)) := by
    refine (inert_of_serves fun _ _ _ _ h ↦ h).bind fun _ ↦ ?_
    refine ((served faults random).inert_withSession_checkedStat ctx true a.root path).bind ?_
    exact fun result ↦ (inert_of_serves fun _ _ _ _ h ↦ h).bind fun _ ↦ .ret result
  refine hlocked.bind ?_
  rintro (err | entry)
  · exact .ret _
  · exact .ret _

/-! ## The upload -/

section Upload

variable {u : Upload} {v₀ : Server} {source : Source}

/-- Directories may have been made, and nothing has been uploaded. -/
structure Prepared (v₀ : Server) (u : Upload) (v : Server) : Prop where
  staged : Staged u v₀.tree v.tree
  uploads : v.uploads = v₀.uploads

/-- What `Write` leaves, and how often it has uploaded. -/
structure Finishes (v₀ : Server) (u : Upload) (source : Source) (succeeded : Prop) (v : Server) :
    Prop where
  leaves : Leaves u source.content source.Complete succeeded v₀.tree v.tree
  uploads : v.uploads = v₀.uploads ∨ v.uploads = v₀.uploads ++ [u.temporary]

/-- The loop of `makeDirectories`, after some names. -/
theorem ensures_makeDirectoriesFrom (session : Session) {current : Str} {segments : List Str}
    (hcurrent : Plain current) (hsegments : ∀ x ∈ segments, IsName x)
    (hdirectory : elements current ++ segments = u.directory) (h : Prepared v₀ u w.2) :
    Ensures (answers faults random t) False (makeDirectoriesFrom session current segments) w
      fun _ w' ↦ Prepared v₀ u w'.2 := by
  induction segments generalizing current w with
  | nil => exact h
  | cons segment segments ih =>
      have hsegment := hsegments segment List.mem_cons_self
      have hplain : ∀ x ∈ [current, segment], Plain x := by
        simp [hcurrent, plain_of_isName hsegment]
      have helements : elements (join [current, segment]) = elements current ++ [segment] := by
        rw [elements_join hplain]
        simp [elements_eq_singleton hsegment.noSlash hsegment.ne_nil hsegment.ne_dot]
      have hrest (w : State × Server) (h : Prepared v₀ u w.2) :
          Ensures (answers faults random t) False
            (makeDirectoriesFrom session (join [current, segment]) segments) w
            fun _ w' ↦ Prepared v₀ u w'.2 := by
        refine ih (plain_join hplain) (fun x hx ↦ hsegments x (List.mem_cons_of_mem _ hx)) ?_ h
        rw [helements, List.append_assoc]
        exact hdirectory
      have hmake : Ensures (answers faults random t) False
          (perform (.makeDir session (join [current, segment]))) w
          fun _ w' ↦ Prepared v₀ u w'.2 := by
        refine ensures_serves fun _ r _ v hchanges ↦ ?_
        dsimp only [serves] at hchanges
        obtain ⟨tree, rfl, ⟨-, rfl⟩ | ⟨hnone, hsets⟩⟩ := hchanges.cases
        · exact h
        refine ⟨h.staged.makes fun l ↦ ?_, h.uploads⟩
        rw [hsets l]
        split
        · rename_i heq
          refine .inr ⟨heq ▸ hnone, rfl, ?_⟩
          rw [heq, helements, ← hdirectory]
          exact ⟨segments, by simp⟩
        · exact .inl rfl
      refine hmake.check (fun err w₁ h₁ ↦ ?_) hrest
      refine ((served faults random).inert_perform (.stat session _)).next ?_
      rintro (_ | entry) s
      · exact h₁
      dsimp only
      split
      · exact hrest (s, w₁.2) h₁
      · exact h₁

theorem ensures_upload {session : Session} {name newName : Str}
    (hname : elements name = u.temporary) (hnewName : elements newName = u.destination)
    (h : Prepared v₀ u w.2) :
    Ensures (answers faults random t) False (upload ctx session name newName source) w
      fun r w' ↦ Finishes v₀ u source (r = none) w'.2 := by
  have hdelete (err : Err) (w : State × Server)
      (h : Finishes v₀ u source False w.2) :
      Ensures (answers faults random t) False (do
        let _ ← perform (.delete session name)
        return some err : Prog sig (Option Err)) w
        fun r w' ↦ Finishes v₀ u source (r = none) w'.2 := by
    have hserved : Ensures (answers faults random t) False (perform (.delete session name)) w
        fun _ w' ↦ Finishes v₀ u source False w'.2 := by
      refine ensures_serves fun _ r _ v hchanges ↦ ?_
      dsimp only [serves] at hchanges
      obtain ⟨tree, rfl, ⟨-, rfl⟩ | ⟨-, hsets⟩⟩ := hchanges.cases
      · exact h
      · exact ⟨h.leaves.sets (hname ▸ hsets), h.uploads⟩
    exact hserved.bind fun _ _ h₁ ↦ ⟨h₁.leaves.mono nofun, h₁.uploads⟩
  have hstore : Ensures (answers faults random t) False (perform (.store session name ctx source)) w
      fun (r : Option Err) w' ↦ Staged u v₀.tree w'.2.tree ∧
        w'.2.uploads = v₀.uploads ++ [u.temporary] ∧ (r = none → source.Complete ∧
          w'.2.tree.lookup u.temporary = some (.file source.content)) := by
    refine ensures_serves fun _ r _ v hserves ↦ ?_
    obtain ⟨tree, rfl, hstores⟩ := hserves
    rw [hname] at hstores ⊢
    have huploads : w.2.uploads ++ [u.temporary] = v₀.uploads ++ [u.temporary] := by rw [h.uploads]
    cases r with
    | none =>
        obtain ⟨hcomplete, -, hsets⟩ := hstores
        exact ⟨h.staged.sets hsets, huploads, fun _ ↦ ⟨hcomplete, (hsets _).trans (if_pos rfl)⟩⟩
    | some err =>
        obtain ⟨rfl | ⟨-, content, -, hsets⟩, -⟩ := hstores
        · exact ⟨h.staged, huploads, nofun⟩
        · exact ⟨h.staged.sets hsets, huploads, nofun⟩
  refine hstore.check (fun err w₁ h₁ ↦ hdelete err w₁ ⟨.inl ⟨id, h₁.1⟩, .inr h₁.2.1⟩) ?_
  intro w₁ h₁
  obtain ⟨hcomplete, hcontent⟩ := h₁.2.2 rfl
  refine (inert_of_serves fun _ _ _ _ h ↦ h).next ?_
  rintro (_ | err) s
  swap
  · exact hdelete err.err (s, w₁.2) ⟨.inl ⟨id, h₁.1⟩, .inr h₁.2.1⟩
  have hrename : Ensures (answers faults random t) False (perform (.rename session name newName))
      (s, w₁.2) fun r w' ↦ Finishes v₀ u source (r = none) w'.2 := by
    refine ensures_serves fun _ r _ v hchanges ↦ ?_
    dsimp only [serves] at hchanges
    obtain ⟨tree, rfl, hmoves⟩ := hchanges.cases
    rw [hname, hnewName] at hmoves
    exact ⟨h₁.1.rename hcomplete hcontent hmoves, .inr h₁.2.1⟩
  refine hrename.check (fun err w₃ h₃ ↦ ?_) fun w₃ h₃ ↦ h₃
  exact hdelete err w₃ ⟨h₃.leaves.mono False.elim, h₃.uploads⟩

theorem ensures_makeDirectories (hroot : IsRoot a.root) {path : Path} (hpath : path ≠ .root)
    (hu : u.Of a.root random path) (session : Session) (h : Prepared v₀ u w.2) :
    Ensures (answers faults random t) False (makeDirectories session (dir (a.remotePath path))) w
      fun _ w' ↦ Prepared v₀ u w'.2 := by
  have hdir : dir (a.remotePath path) =
      slash :: [slash].intercalate (location a.root path).dropLast :=
    dir_remoteName hroot hpath
  have hnames : ∀ x ∈ (location a.root path).dropLast, IsName x := fun x hx ↦
    (isName_of_mem_location hroot path (List.mem_of_mem_dropLast hx)).1
  unfold makeDirectories
  split
  · exact h
  rename_i hslash
  have hne : (location a.root path).dropLast ≠ [] := by
    intro hnil
    rw [hdir, hnil] at hslash
    exact hslash (.inl rfl)
  have hsplit : ((cutPrefix [slash] (dir (a.remotePath path))).getD
      (dir (a.remotePath path))).splitOn slash = (location a.root path).dropLast := by
    rw [hdir, cutPrefix_eq_some.mpr (List.singleton_append ..).symm, Option.getD_some]
    exact List.splitOn_intercalate slash (fun x hx ↦ (hnames x hx).noSlash) hne
  dsimp only
  rw [hsplit]
  refine ensures_makeDirectoriesFrom session (by unfold Plain; decide) hnames ?_ h
  exact (elements_dir_remoteName hroot hpath).symm.trans hu.directory

end Upload

/-- What `write` leaves.  It has come to nothing before it changes anything, or the look
at the destination has found none. -/
theorem ensures_writeLocked (hroot : IsRoot a.root) {path : Path} (hpath : path ≠ .root)
    {source : Source} {u : Upload} (hu : u.Of a.root random path) (session : Session) :
    Ensures (answers faults random t) False (writeLocked a ctx session path source) w
      fun r (w' : State × Server) ↦ (r ≠ none ∧ w'.2 = w.2) ∨
        (w.2.tree.lookup u.destination = none ∧ Finishes w.2 u source (r = none) w'.2) := by
  refine (inert_rejectLink session path false).next ?_
  rintro (_ | err) s
  swap
  · exact .inl ⟨nofun, rfl⟩
  have hstat : Ensures (answers faults random t) False (perform (.stat session (a.remotePath path)))
      (s, w.2) fun r w' ↦ w'.2 = w.2 ∧ ∀ err, r = .error err → isNotFound err = true →
        w.2.tree.lookup u.destination = none := by
    refine ensures_serves fun _ r _ v hstats ↦ ⟨hstats.1, ?_⟩
    rintro err rfl hmissing
    by_contra hsome
    have hfound : isNotFound err = false := hstats.2.1 (hu.destination.symm ▸ hsome)
    exact nomatch hmissing.symm.trans hfound
  refine hstat.bind ?_
  rintro (err | entry) ⟨s, _⟩ ⟨rfl, hmissing⟩
  · dsimp only
    split
    · exact .inl ⟨nofun, rfl⟩
    rename_i hfound
    have hnone := hmissing err rfl (by simpa using hfound)
    refine (ensures_makeDirectories (w := (s, w.2)) hroot hpath hu session
      (⟨Staged.refl u _, rfl⟩ : Prepared w.2 u w.2)).bind fun r w₃ h₃ ↦ ?_
    have hfailed (err : Err) : Finishes w.2 u source (some err = none) w₃.2 :=
      ⟨.inl ⟨nofun, h₃.staged⟩, .inl h₃.uploads⟩
    cases r with
    | some err => exact .inr ⟨hnone, hfailed err⟩
    | none =>
        have hrandom : Ensures (answers faults random t) False (perform .random) w₃ fun r w' ↦
            w'.2 = w₃.2 ∧ ∀ bytes, r = .ok bytes → bytes = random := by
          refine ensures_serves ?_
          rintro _ (err | bytes) _ _ ⟨rfl, hbytes⟩
          · exact ⟨rfl, nofun⟩
          · exact ⟨rfl, fun _ heq ↦ Except.ok.inj heq ▸ hbytes⟩
        refine hrandom.bind ?_
        rintro (err | bytes) ⟨s, _⟩ ⟨rfl, hbytes⟩
        · exact .inr ⟨hnone, hfailed _⟩
        rw [hbytes bytes rfl]
        exact (ensures_upload (w := (s, w₃.2)) hu.temporary hu.destination h₃).mono
          fun _ _ h ↦ .inr ⟨hnone, h⟩
  · exact .inl ⟨nofun, rfl⟩

/-- What `Write` leaves. -/
theorem ensures_write (hroot : IsRoot a.root) {path : Path} {source : Source}
    {options : WriteOptions} {u : Upload} (hu : path ≠ .root → u.Of a.root random path) :
    Ensures (answers faults random t) False (write a ctx path source options) w
      fun r (w' : State × Server) ↦ (r.isOk = false ∧ w'.2 = w.2) ∨
        (path ≠ .root ∧ w.2.tree.lookup u.destination = none ∧
          Finishes w.2 u source (r.isOk = true) w'.2) := by
  unfold write
  split
  · exact .inl ⟨rfl, rfl⟩
  rename_i hisRoot
  split
  · exact .inl ⟨rfl, rfl⟩
  have hpath : path ≠ .root := Path.isRoot_eq_false_iff.mp (Bool.not_eq_true _ ▸ hisRoot)
  refine (inert_of_serves fun _ _ _ _ h ↦ h).next fun _ s ↦ ?_
  refine ((served faults random).inert_currentSession ctx).next ?_
  rintro (err | session) s
  · exact (inert_of_serves fun _ _ _ _ h ↦ h).next fun _ s ↦ .inl ⟨rfl, rfl⟩
  refine (ensures_writeLocked hroot hpath (hu hpath) session).bind fun err w₃ h₃ ↦ ?_
  refine (inert_of_serves fun _ _ _ _ h ↦ h).next fun _ s ↦ ?_
  cases err with
  | some err =>
      rcases h₃ with ⟨-, heq⟩ | ⟨hnone, hfinishes⟩
      · exact .inl ⟨rfl, heq⟩
      · exact .inr ⟨hpath, hnone, hfinishes.leaves.mono nofun, hfinishes.uploads⟩
  | none =>
      obtain ⟨hnone, hfinishes⟩ := h₃.resolve_left fun h ↦ h.1 rfl
      refine (inert_stat path _).mono fun r w₅ h₅ ↦ .inr ⟨hpath, hnone, ?_⟩
      exact h₅.symm ▸ ⟨hfinishes.leaves.mono fun _ ↦ rfl, hfinishes.uploads⟩

end GoFilesystem.Ftp
