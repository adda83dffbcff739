import GoFilesystem.Ftp.Adapter
import GoFilesystem.Remote.Sessions

/-!
# What the operations of the FTP adapter ask for

An operation that has got a session makes all its requests on that session, and what
goes on beside the operations uses none.
-/

namespace GoFilesystem.Ftp

open Go Conc

/-- The session that a request of an operation is made on. -/
def Cmd.target : Cmd → Option Session
  | .stat session _ | .list session _ | .makeDir session _ | .delete session _
  | .rename session _ _ | .store session _ _ _ => some session
  | _ => none

/-- What an operation does beside its requests. -/
def Cmd.aside : Cmd → Bool
  | .ctxErr _ | .random => true
  | _ => false

def Cmd.On (session : Session) (c : Cmd) : Prop := c.target = some session ∨ c.aside = true

variable {a : Adapter}

theorem rejectLink_within (session : Session) (path : Path) (includeFinal : Bool) :
    (rejectLink a session path includeFinal).Within (Cmd.On session) :=
  client.rejectLinks_within (fun _ ↦ .inl rfl) _

theorem checkedStat_within (path : Path) (session : Session) :
    (checkedStat a path session).Within (Cmd.On session) :=
  client.checkedStat_within (fun _ ↦ .inl rfl) (fun _ ↦ .inl rfl) a.root path

/-- The operation of `Delete`. -/
theorem deleteOn_within (path : Path) (session : Session) : Prog.Within (Cmd.On session) (do
    match ← rejectLink a session path true with
    | some err => return .error err
    | none =>
      match ← perform (.delete session (a.remotePath path)) with
      | some err => return .error err
      | none => return .ok () : Prog sig (Except Err Unit)) := by
  refine (rejectLink_within session path _).bind ?_
  rintro (_ | err)
  · refine .step (.inl rfl) ?_
    rintro (_ | err) <;> trivial
  · trivial

theorem readDir_within (ctx : Ctx) (session : Session) (name : Str) :
    (client.readDir ctx session name).Within (Cmd.On session) := by
  refine .step (.inr rfl) ?_
  rintro (_ | err)
  · exact .command (.inl rfl)
  · trivial

theorem listTree_within (ctx : Ctx) (directory : Path) (recursive : Bool) (limit : Int)
    (session : Session) :
    (listTree a ctx directory recursive limit session).Within (Cmd.On session) :=
  client.listTree_within (fun _ ↦ .inl rfl) (readDir_within ctx session) a.root directory
    recursive limit

theorem makeDirectories_within (session : Session) (directory : Str) :
    (makeDirectories session directory).Within (Cmd.On session) := by
  have hfrom : ∀ segments current,
      (makeDirectoriesFrom session current segments).Within (Cmd.On session) := by
    intro segments
    induction segments with
    | nil => exact fun _ ↦ trivial
    | cons segment segments ih =>
        intro current
        refine .step (.inl rfl) ?_
        rintro (_ | err)
        · exact ih _
        · refine .step (.inl rfl) ?_
          rintro (err | entry)
          · trivial
          · dsimp only
            split
            · exact ih _
            · trivial
  unfold makeDirectories
  split
  · trivial
  · exact hfrom _ _

theorem upload_within (ctx : Ctx) (session : Session) (temporary destination : Str)
    (source : Source) :
    (upload ctx session temporary destination source).Within (Cmd.On session) := by
  have hcleanup (err : Err) : Prog.Within (Cmd.On session) (do
      let _ ← perform (.delete session temporary)
      return some err) := .step (.inl rfl) fun _ ↦ trivial
  refine .step (.inl rfl) ?_
  rintro (_ | err)
  · refine .step (.inr rfl) ?_
    rintro (_ | err)
    · refine .step (.inl rfl) ?_
      rintro (_ | err)
      · trivial
      · exact hcleanup err
    · exact hcleanup err.err
  · exact hcleanup err

theorem writeLocked_within (ctx : Ctx) (session : Session) (path : Path) (source : Source) :
    (writeLocked a ctx session path source).Within (Cmd.On session) := by
  refine (rejectLink_within session path _).bind ?_
  rintro (_ | err)
  · refine .step (.inl rfl) ?_
    rintro (err | entry)
    · dsimp only
      split
      · trivial
      · refine (makeDirectories_within session _).bind ?_
        rintro (_ | err)
        · refine .step (.inr rfl) ?_
          rintro (err | random)
          · trivial
          · exact upload_within ctx session _ _ source
        · trivial
    · trivial
  · trivial

/-! ## Programs that use no session -/

/-- The commands of the streams beside the transfers, and of `Abort`. -/
def Cmd.background : Cmd → Bool
  | .ctxErr _ | .ctxDone _ | .lock | .unlock | .loadSession | .abort _ | .beginWatch _
  | .useStream _ | .pipe _ _ | .select _ _ | .endSelect _ | .onceDo _ | .onceDone _
  | .awaitDone _ => true
  | _ => false

def Cmd.Background (c : Cmd) : Prop := c.background = true

theorem abortTransfer_within : abortTransfer.Within Cmd.Background := by
  refine .step rfl fun _ ↦ .step rfl fun session ↦ .step rfl fun _ ↦ ?_
  cases session with
  | none => trivial
  | some session => exact .step rfl fun _ ↦ trivial

theorem watchCancellation_within (n : StreamId) :
    (watchCancellation n).Within Cmd.Background := by
  refine .step rfl fun ctx ↦ .step rfl ?_
  rintro (_ | _)
  · trivial
  · exact .step rfl fun _ ↦ .step rfl fun _ ↦
      abortTransfer_within.bind fun _ ↦ .command rfl

theorem read_within (n : StreamId) : (read n).Within Cmd.Background := by
  refine .step rfl fun ctx ↦ .step rfl ?_
  rintro (_ | _)
  · exact .get (.check (.command rfl) (fun _ ↦ trivial) (.command rfl)) (fun _ ↦ trivial)
      fun _ ↦ trivial
  · exact .step rfl fun _ ↦ trivial

theorem closeStream_within (n : StreamId) : (closeStream n).Within Cmd.Background := by
  have hawait (ctx : Ctx) : Prog.Within Cmd.Background (do
      perform (.awaitDone n)
      let err ← perform (.ctxErr ctx)
      return err.map CtxErr.err) :=
    .step rfl fun _ ↦ .step rfl fun _ ↦ trivial
  refine .step rfl fun ctx ↦ .step rfl ?_
  rintro (_ | _)
  · exact hawait ctx
  · exact .step rfl fun _ ↦ abortTransfer_within.bind fun _ ↦
      .step rfl fun _ ↦ hawait ctx

theorem pipeWrite_within (n : StreamId) (bytes : Str) :
    (Pipe.write (fun c ↦ perform (.pipe n c)) bytes).Within Cmd.Background := by
  refine .check (.command rfl) (fun _ ↦ trivial) (.loop (fun (bytes, count) ↦ ?_) _)
  refine .step rfl fun _ ↦ .get (.command rfl) (fun _ ↦ trivial) fun taken ↦ ?_
  dsimp only
  split <;> trivial

/-- The commands that neither use a session nor pass one on. -/
def Cmd.spares : Cmd → Bool
  | .stat _ _ | .list _ _ | .makeDir _ _ | .delete _ _ | .rename _ _ _ | .store _ _ _ _
  | .retrieve _ _ | .retrieving _ | .start _ _ _ _ => false
  | .storeSession session => session.isNone
  | _ => true

def Cmd.Spares (c : Cmd) : Prop := c.spares = true

theorem spares_of_background {α : Type} {p : Prog sig α} (h : p.Within Cmd.Background) :
    p.Within Cmd.Spares := by
  refine h.mono fun c hc ↦ ?_
  cases c with
  | stat | list | makeDir | delete | rename | store | retrieve | retrieving | start
  | storeSession => contradiction
  | _ => rfl

theorem close_spares : close.Within Cmd.Spares := by
  have hclose : client.close.Within Cmd.Spares := by
    refine client.close_within fun c hc hstore ↦ ?_
    cases c with
    | lstat | stat => contradiction
    | storeSession session =>
        cases session with
        | none => rfl
        | some session => exact absurd rfl (hstore session)
    | _ => rfl
  exact (spares_of_background abortTransfer_within).bind fun _ ↦ .step rfl fun _ ↦
    hclose.bind fun _ ↦ .step rfl fun _ ↦ trivial

end GoFilesystem.Ftp
