import GoFilesystem.Ftp.Upload
import GoFilesystem.Listings
import GoFilesystem.Sftp.Upload

/-!
# Writes to servers

`Write` of the two adapters for servers, as one call on its own.  The server may fail any
request, with or without effect, leave an upload partial, and lose the connection; the
context may be done at any time.
-/

namespace GoFilesystem

open Go Conc Posix Remote

/-- Whenever `Write` of the SFTP adapter returns, what it returns and what it leaves have
a property. -/
def Sftp.WriteLeaves (a : Sftp.Adapter) (faults : Bool) (random : Str) (path : Path)
    (options : WriteOptions) (v : Sftp.Outside) (Q : Except Err Metadata → Sftp.Outside → Prop) :
    Prop :=
  ∀ t ctx s r w, Eval (Sftp.answers faults random t) (Sftp.write a ctx path options) (s, v) r w →
    Q r w.2

/-- Whenever `Write` of the FTP adapter returns, what it returns and what it leaves have a
property. -/
def Ftp.WriteLeaves (a : Ftp.Adapter) (faults : Bool) (random : Str) (path : Path)
    (source : Source) (options : WriteOptions) (v : Server)
    (Q : Except Err Metadata → Server → Prop) : Prop :=
  ∀ t ctx s r w,
    Eval (Ftp.answers faults random t) (Ftp.write a ctx path source options) (s, v) r w → Q r w.2

/-! ## Writes that succeed -/

/-- A path in the directory of `fileAndDirectory`. -/
def drivePath : Path := ⟨.lit "d/c:x", .inr (by decide)⟩

/-- `fileAndDirectory` after a file has been written to `drivePath`. -/
def driveTree : FileTree :=
  fileAndDirectory.add [.lit "d"] (.lit "c:x") (.file (.lit "new")) (by decide)
    lookup_fileAndDirectory rfl

/-- `fileAndDirectory` while a file is written. -/
def stagedTree (content : Str) : FileTree :=
  fileAndDirectory.add [.lit "d"] (temporaryName []) (.file content) (isName_temporaryName [])
    lookup_fileAndDirectory rfl

theorem moves_stagedTree : (stagedTree (.lit "new")).Moves [.lit "d", temporaryName []]
    [.lit "d", .lit "c:x"] driveTree :=
  FileTree.moves_add (by decide)

/-- `Write` of the FTP adapter to `drivePath`. -/
def Ftp.DriveWritten (r : Except Err Metadata) (w : Ftp.State × Server) : Prop :=
  Eval (Ftp.answers false [] (.call 0))
    (Ftp.write ⟨[slash], 10⟩ 0 drivePath { reads := [.lit "new"] } {})
    ({}, { tree := fileAndDirectory }) r w

open Client.Runs in
theorem Ftp.driveWritten : ∃ metadata s, Ftp.DriveWritten (.ok metadata)
    (s, ⟨driveTree, [], [temporaryLocation [slash] [] drivePath]⟩) := by
  let found (directory : Bool) (size : Nat) : Except Err Ftp.RemoteEntry := .ok { directory, size }
  let missing : Except Err Ftp.RemoteEntry := .error (.sentinel .fileUnavailable)
  refine ⟨{ path := drivePath, kind := .file, size := 3, modified := 0 }, {}, ?_⟩
  refine eval_call (r := ()) rfl rfl ?_
  refine eval_call (r := @none CtxErr) rfl rfl ?_
  refine eval_call (r := ()) rfl rfl ?_
  refine eval_call (r := false) rfl rfl ?_
  refine eval_call (r := some 0) rfl rfl ?_
  refine eval_call (r := ()) rfl rfl ?_
  apply eval_call (r := found true 0) rfl
  · exact ⟨rfl, .directory, rfl, rfl, rfl⟩
  apply eval_call (r := missing) rfl
  · exact ⟨rfl, fun h ↦ absurd rfl h, fun _ ↦ ⟨rfl, rfl, rfl⟩⟩
  apply eval_call (r := some (Err.sentinel .fileUnavailable)) rfl
  · exact ⟨_, rfl, .inl rfl, fun _ ↦ rfl⟩
  apply eval_call (r := found true 0) rfl
  · exact ⟨rfl, .directory, rfl, rfl, rfl⟩
  apply eval_call (r := (.ok [] : Except Err Str)) rfl
  · exact ⟨rfl, rfl⟩
  apply eval_call (r := @none Err) rfl
  · exact ⟨stagedTree (.lit "new"), rfl, rfl, by decide +kernel, FileTree.sets_add⟩
  refine eval_call (r := @none CtxErr) rfl rfl ?_
  apply eval_call (r := @none Err) rfl
  · exact ⟨driveTree, rfl, moves_stagedTree⟩
  refine eval_call (r := ()) rfl rfl ?_
  refine eval_call (r := ()) rfl rfl ?_
  refine eval_call (r := @none CtxErr) rfl rfl ?_
  refine eval_call (r := ()) rfl rfl ?_
  refine eval_call (r := false) rfl rfl ?_
  refine eval_call (r := some 0) rfl rfl ?_
  refine eval_call (r := ()) rfl rfl ?_
  apply eval_call (r := found true 0) rfl
  · exact ⟨rfl, .directory, rfl, rfl, rfl⟩
  apply eval_call (r := found false 3) rfl
  · exact ⟨rfl, .file (.lit "new"), rfl, rfl, rfl, rfl⟩
  apply eval_call (r := found false 3) rfl
  · exact ⟨rfl, .file (.lit "new"), rfl, rfl, rfl, rfl⟩
  exact eval_call (r := ()) rfl rfl .ret

/-- `Write` of the SFTP adapter to `drivePath`. -/
def Sftp.DriveWritten (r : Except Err Metadata) (w : Sftp.State × Sftp.Outside) : Prop :=
  Eval (Sftp.answers false [] (.call 0)) (Sftp.write ⟨[slash], 10, true⟩ 0 drivePath {})
    ({}, { tree := fileAndDirectory }) r w

open Client.Runs in
theorem Sftp.driveWritten : ∃ metadata w, Sftp.DriveWritten (.ok metadata) w ∧
    w.2.tree = driveTree ∧ w.2.received = .lit "new" ∧ w.2.ended = true ∧
    w.2.uploads = [temporaryLocation [slash] [] drivePath] := by
  let found (directory : Bool) (size : Nat) : Except Err Sftp.Info := .ok { directory, size }
  let missing : Except Err Sftp.Info := .error (.sentinel .notExist)
  let files : Sftp.File → Option Location :=
    Function.update (fun _ ↦ none) ⟨0, 0⟩ (some (temporaryLocation [slash] [] drivePath))
  refine ⟨{ path := drivePath, kind := .file, size := 3, modified := 0 }, ({}, {
    tree := driveTree
    uploads := [temporaryLocation [slash] [] drivePath]
    files
    received := .lit "new"
    ended := true }), ?_, rfl, rfl, rfl, rfl⟩
  refine eval_call (r := @none CtxErr) rfl rfl ?_
  refine eval_call (r := ()) rfl rfl ?_
  refine eval_call (r := false) rfl rfl ?_
  refine eval_call (r := some 0) rfl rfl ?_
  refine eval_call (r := ()) rfl rfl ?_
  apply eval_call (r := found true 0) rfl
  · exact ⟨_, rfl, rfl, .directory, rfl, rfl, rfl⟩
  apply eval_call (r := missing) rfl
  · exact ⟨_, rfl, rfl, fun h ↦ absurd rfl h, fun _ ↦ ⟨rfl, rfl, rfl⟩⟩
  apply eval_call (r := @none Err) rfl
  · exact ⟨_, rfl, _, rfl, fun _ ↦ .inl rfl, rfl⟩
  apply eval_call (r := (.ok [] : Except Err Str)) rfl
  · exact ⟨rfl, rfl⟩
  apply eval_call (r := (.ok 0 : Except Err Nat)) rfl
  · exact ⟨stagedTree [], rfl, FileTree.sets_add, rfl⟩
  refine .iter ?_
  refine eval_call (r := false) rfl rfl ?_
  refine eval_call (r := (Str.lit "new", some (.sentinel .eof))) rfl rfl ?_
  apply eval_call (r := ((3 : Nat), @none Err)) rfl
  · refine ⟨stagedTree (.lit "new"), rfl, .inr ⟨_, [], Str.lit "new", rfl, rfl, ?_, ?_, ?_⟩⟩
    · exact List.prefix_rfl
    · exact FileTree.sets_add_add
    · exact fun _ ↦ rfl
  refine eval_call (r := @none CtxErr) rfl rfl ?_
  refine eval_call (r := @none Err) rfl rfl ?_
  refine eval_call (r := @none Err) rfl rfl ?_
  apply eval_call (r := @none Err) rfl
  · exact ⟨_, rfl, driveTree, rfl, .inr moves_stagedTree⟩
  refine eval_call (r := @none CtxErr) rfl rfl ?_
  refine eval_call (r := ()) rfl rfl ?_
  refine eval_call (r := false) rfl rfl ?_
  refine eval_call (r := some 0) rfl rfl ?_
  refine eval_call (r := ()) rfl rfl ?_
  apply eval_call (r := found true 0) rfl
  · exact ⟨_, rfl, rfl, .directory, rfl, rfl, rfl⟩
  apply eval_call (r := found false 3) rfl
  · exact ⟨_, rfl, rfl, .file (.lit "new"), rfl, rfl, rfl, rfl⟩
  apply eval_call (r := found false 3) rfl
  · exact ⟨_, rfl, rfl, .file (.lit "new"), rfl, rfl, rfl, rfl⟩
  exact .ret

/-! ## Atomicity -/

/-- **Writes to servers are atomic.**  Once `Write` returns, the destination is as before
or holds all that the source returned up to its end, and does so if `Write` succeeded; one
that existed is as before unless the SFTP server can replace files; nothing else but the
temporary file has changed, up to directories on the way; and there was at most one upload,
outside of which the source was not read. -/
theorem writes_atomic (faults : Bool) (random : Str) (path : Path) (options : WriteOptions) :
    (∀ (a : Sftp.Adapter) (v : Sftp.Outside), a.Valid → v.received = [] →
      location a.root path ≠ temporaryLocation a.root random path →
      Sftp.WriteLeaves a faults random path options v fun r v' ↦
        Atomic (location a.root path) (temporaryLocation a.root random path) v'.received
          (v'.ended = true) (r.isOk = true) (a.atomicRename = true) v.tree v'.tree ∧
        ((v'.uploads = v.uploads ∧ v'.received = []) ∨
          v'.uploads = v.uploads ++ [temporaryLocation a.root random path])) ∧
    ∀ (a : Ftp.Adapter) (source : Source) (v : Server), a.Valid →
      location a.root path ≠ temporaryLocation a.root random path →
      Ftp.WriteLeaves a faults random path source options v fun r v' ↦
        Atomic (location a.root path) (temporaryLocation a.root random path) source.content
          source.Complete (r.isOk = true) False v.tree v'.tree ∧
        (v'.uploads = v.uploads ∨
          v'.uploads = v.uploads ++ [temporaryLocation a.root random path]) := by
  constructor
  · intro a v ha hreceived hne t ctx s r w heval
    rcases heval.ensures (Sftp.ensures_write (of_uploadOf ha.isRoot · hne) hreceived) with
      ⟨hfailed, heq⟩ | ⟨hpath, hexisting, hfinishes⟩
    · rw [heq]
      exact ⟨Atomic.refl (Bool.not_eq_true _ ▸ hfailed) _, .inl ⟨rfl, hreceived⟩⟩
    · exact ⟨hfinishes.leaves.atomic rfl (location_ne_nil a.root hpath) hexisting,
        hreceived ▸ hfinishes.uploads⟩
  · intro a source v ha hne t ctx s r w heval
    rcases heval.ensures (Ftp.ensures_write ha.isRoot (of_uploadOf ha.isRoot · hne)) with
      ⟨hfailed, heq⟩ | ⟨hpath, hnone, hfinishes⟩
    · rw [heq]
      exact ⟨Atomic.refl (Bool.not_eq_true _ ▸ hfailed) _, .inl rfl⟩
    · exact ⟨hfinishes.leaves.atomic rfl (location_ne_nil a.root hpath) (.inr hnone),
        hfinishes.uploads⟩

theorem writes_atomic_drive :
    (∃ metadata w, Sftp.DriveWritten (.ok metadata) w ∧
      Atomic (location [slash] drivePath) (temporaryLocation [slash] [] drivePath) (.lit "new")
        True True True fileAndDirectory w.2.tree ∧
      w.2.uploads = [temporaryLocation [slash] [] drivePath]) ∧
    ∃ metadata w, Ftp.DriveWritten (.ok metadata) w ∧
      Atomic (location [slash] drivePath) (temporaryLocation [slash] [] drivePath) (.lit "new")
        True True False fileAndDirectory w.2.tree ∧
      w.2.uploads = [temporaryLocation [slash] [] drivePath] := by
  have hne : location [slash] drivePath ≠ temporaryLocation [slash] [] drivePath := by
    decide +kernel
  have hwrites := writes_atomic false [] drivePath {}
  constructor
  · obtain ⟨metadata, w, heval, -, hreceived, hended, huploads⟩ := Sftp.driveWritten
    have hatomic := (hwrites.1 _ _ ⟨⟨[], rfl⟩, by decide⟩ rfl hne _ _ _ _ _ heval).1
    rw [hreceived, eq_true hended] at hatomic
    exact ⟨metadata, w, heval, by simpa [Except.isOk, Except.toBool] using hatomic, huploads⟩
  · obtain ⟨metadata, s, heval⟩ := Ftp.driveWritten
    have hatomic := (hwrites.2 _ _ _ ⟨⟨[], rfl⟩, by decide⟩ hne _ _ _ _ _ heval).1
    rw [eq_true (by decide : Source.Complete { reads := [.lit "new"] }),
      (by decide : Source.content { reads := [.lit "new"] } = .lit "new")] at hatomic
    exact ⟨metadata, _, heval, by simpa [Except.isOk, Except.toBool] using hatomic, rfl⟩

end GoFilesystem
