import GoFilesystem.Remote.Session

/-!
# The FTP adapter

`ftp.go`.  One control session serves every operation, so an operation holds
`opMu` while it talks to the server.  A read stream keeps that lock beyond
`Open`: the goroutine that transfers the file releases it.  `mu` guards the
fields of the adapter.  Each method is a program over the commands below; what
the server, the connector and the source of random bytes answer is a response.

A call is known by a number, and a stream by the number of the call of `Open`
that returned it.  The two goroutines that `Open` starts wait until it does.

The handling of the session and the walk of `list` are those of the SFTP adapter too,
and are written down in `Remote.Session`; `client` says what they are here.
-/

namespace GoFilesystem.Ftp

open Go Conc

abbrev Session := Nat

abbrev Ctx := Nat

abbrev StreamId := Nat

abbrev RemoteEntry := Remote.Child

/-- What `Retrieve` does next: write to the stream, or return. -/
inductive Retrieval where
  | write (bytes : Str)
  | done (err : Option Err)
deriving DecidableEq

inductive Cmd where
  /-- `ctx.Err()`. -/
  | ctxErr (ctx : Ctx)
  /-- Whether `<-ctx.Done()` would be received from. -/
  | ctxDone (ctx : Ctx)
  /-- The context's `cancel`, or its deadline. -/
  | cancel (ctx : Ctx) (err : CtxErr)
  | opLock
  | opUnlock
  | lock
  | unlock
  | loadClosed
  | storeClosed
  | loadSession
  | storeSession (session : Option Session)
  /-- `a.connector(ctx)`. -/
  | connect (ctx : Ctx)
  /-- `io.ReadFull(a.random, random[:])`. -/
  | random
  | stat (session : Session) (name : Str)
  | list (session : Session) (name : Str)
  | makeDir (session : Session) (name : Str)
  | delete (session : Session) (name : Str)
  | rename (session : Session) (source destination : Str)
  /-- `Store`, which reads the source through a `contextReader`. -/
  | store (session : Session) (name : Str) (ctx : Ctx) (source : Source)
  /-- The call of `Retrieve`. -/
  | retrieve (session : Session) (name : Str)
  /-- What `Retrieve` does next. -/
  | retrieving (session : Session)
  | quit (session : Session)
  | abort (session : Session)
  /-- The two `go` statements of `Open`. -/
  | start (stream : StreamId) (session : Session) (ctx : Ctx) (path : Path)
  /-- The start of `transfer`. -/
  | beginTransfer (stream : StreamId)
  /-- The start of `watchCancellation`. -/
  | beginWatch (stream : StreamId)
  /-- Use of a stream that `Open` has returned. -/
  | useStream (stream : StreamId)
  /-- A step on the pipe of a stream. -/
  | pipe (stream : StreamId) (c : Pipe.Cmd UInt8 Err)
  /-- The `select` of `watchCancellation`: whether it takes the first branch. -/
  | select (stream : StreamId) (ctx : Ctx)
  /-- The end of the first branch. -/
  | endSelect (stream : StreamId)
  /-- `closeOnce.Do`: whether this call is the first. -/
  | onceDo (stream : StreamId)
  /-- The end of the function under `closeOnce.Do`. -/
  | onceDone (stream : StreamId)
  /-- `close(s.done)`. -/
  | closeDone (stream : StreamId)
  /-- `<-s.done`. -/
  | awaitDone (stream : StreamId)

@[reducible] def Cmd.Resp : Cmd → Type
  | .ctxErr _ => Option CtxErr
  | .ctxDone _ | .loadClosed | .select _ _ | .onceDo _ => Bool
  | .loadSession => Option Session
  | .connect _ => Except Err Session
  | .random => Except Err Str
  | .stat _ _ => Except Err RemoteEntry
  | .list _ _ => Except Err (List RemoteEntry)
  | .makeDir _ _ | .delete _ _ | .rename _ _ _ | .store _ _ _ _ | .quit _ | .abort _ => Option Err
  | .retrieving _ => Retrieval
  | .beginTransfer _ => Session × Ctx × Path
  | .beginWatch _ | .useStream _ => Ctx
  | .pipe _ c => c.Resp
  | _ => Unit

@[reducible] def sig : Sig := ⟨Cmd, Cmd.Resp⟩

def perform (c : Cmd) : Prog sig c.Resp := Prog.perform (S := sig) c

/-! ## Errors -/

/-- `isConnectionError` of an error that is not nil. -/
def isConnectionError (err : Err) : Bool :=
  err.is .eof || err.is .unexpectedEOF || err.is .netClosed || err.hasOpError ||
    err.protocolCode.any fun code ↦ code = 421 || code = 425 || code = 426

/-- `isNotFound` of an error that is not nil. -/
def isNotFound (err : Err) : Bool :=
  err.is .fileUnavailable || err.protocolCode = some 550

/-- `mapError` of an error that is not nil. -/
def mapError (path : Path) (err : Err) : Err := Remote.mapError isNotFound path err

def linkIsDenied (name : Str) : Err := .new "ftp: symbolic link %q is denied" [name]

/-! ## Names -/

/-- The fields of the adapter that never change. -/
structure Adapter where
  root : Str
  maxList : Int

variable (a : Adapter)

/-- `remotePath`. -/
def Adapter.remotePath (path : Path) : Str := Remote.remoteName a.root path

/-- The names that `rejectLink` looks at. -/
def Adapter.linkCandidates (path : Path) (includeFinal : Bool) : List Str :=
  Remote.linkCandidates a.root path includeFinal

/-- `effectiveListLimit`. -/
def effectiveListLimit (requested maximum : Int) : Int :=
  Remote.effectiveListLimit requested maximum

/-- `temporaryPath`, once the random bytes are read. -/
def temporaryPath (directory random : Str) : Str := Remote.temporaryPath directory random

/-! ## The session -/

def client : Remote.Client sig where
  cmd
    | .ctxErr ctx => .ctxErr ctx
    | .lock => .lock
    | .unlock => .unlock
    | .loadClosed => .loadClosed
    | .storeClosed => .storeClosed
    | .loadSession => .loadSession
    | .storeSession session => .storeSession session
    | .connect ctx => .connect ctx
    | .release session => .quit session
    | .lstat session name | .stat session name => .stat session name
  resp
    | .ctxErr _ | .lock | .unlock | .loadClosed | .storeClosed | .loadSession | .storeSession _
    | .connect _ | .release _ | .lstat _ _ | .stat _ _ => .refl _
  isConnectionError
  isNotFound
  linkIsDenied
  readDir ctx session name := do
    match ← perform (.ctxErr ctx) with
    | some err => return .error err.err
    | none => perform (.list session name)

/-- `currentSession`. -/
def currentSession (ctx : Ctx) : Prog sig (Except Err Session) := client.currentSession ctx

/-- `invalidate`. -/
def invalidate (failed : Session) : Prog sig Unit := client.invalidate failed

/-- `abortTransfer`. -/
def abortTransfer : Prog sig Unit := do
  perform .lock
  let session ← perform .loadSession
  perform .unlock
  match session with
  | none => return ()
  | some session =>
    let _ ← perform (.abort session)
    return ()

/-- `rejectLink`. -/
def rejectLink (session : Session) (path : Path) (includeFinal : Bool) : Prog sig (Option Err) :=
  client.rejectLinks session (a.linkCandidates path includeFinal)

/-- `withLockedResult`. -/
def withLockedResult {α : Type} (ctx : Ctx) (retry : Bool)
    (operation : Session → Prog sig (Except Err α)) : Prog sig (Except Err α) := do
  perform .opLock
  let result ← client.withSession ctx retry operation
  perform .opUnlock
  return result

/-- A link check and then `Stat`, the operation of `Stat` and the preparation of
`Open`. -/
def checkedStat (path : Path) (session : Session) : Prog sig (Except Err RemoteEntry) :=
  client.checkedStat a.root path session

/-! ## Operations -/

/-- `Stat`. -/
def stat (ctx : Ctx) (path : Path) : Prog sig (Except Err Metadata) := do
  match ← withLockedResult ctx true (checkedStat a path) with
  | .error err => return .error (mapError path err)
  | .ok entry => return .ok (Remote.metadataOf path entry)

/-- `Delete`. -/
def delete (ctx : Ctx) (path : Path) : Prog sig (Option Err) := do
  let result ← withLockedResult ctx false fun session ↦ do
    match ← rejectLink a session path true with
    | some err => return .error err
    | none =>
      match ← perform (.delete session (a.remotePath path)) with
      | some err => return .error err
      | none => return .ok ()
  match result with
  | .error err => return some (mapError path err)
  | .ok () => return none

/-- `list`. -/
def listTree (ctx : Ctx) (directory : Path) (recursive : Bool) (limit : Int) (session : Session) :
    Prog sig (Except Err (List Entry)) :=
  client.listTree a.root ctx directory recursive limit session

/-- `List`. -/
def list (ctx : Ctx) (directory : Path) (options : ListOptions) :
    Prog sig (Except Err (List Entry)) := do
  if options.limit < 0 then
    return .error (.new "ftp: list limit must not be negative" [])
  else
    let limit := effectiveListLimit options.limit a.maxList
    match ← withLockedResult ctx true (listTree a ctx directory options.recursive limit) with
    | .error err => return .error (mapError directory err)
    | .ok entries => return .ok entries

/-- The loop of `makeDirectories`. -/
def makeDirectoriesFrom (session : Session) : Str → List Str → Prog sig (Option Err)
  | _, [] => return none
  | current, segment :: segments => do
    let current := PathName.join [current, segment]
    match ← perform (.makeDir session current) with
    | none => makeDirectoriesFrom session current segments
    | some err =>
      match ← perform (.stat session current) with
      | .error _ => return some err
      | .ok entry =>
        if entry.directory then makeDirectoriesFrom session current segments
        else return some err

/-- `makeDirectories`. -/
def makeDirectories (session : Session) (directory : Str) : Prog sig (Option Err) :=
  if directory = [slash] ∨ directory = [dot] then return none
  else
    let relative := (cutPrefix [slash] directory).getD directory
    makeDirectoriesFrom session [slash] (relative.splitOn slash)

/-- The upload of `write`, once a temporary name is known. -/
def upload (ctx : Ctx) (session : Session) (temporary destination : Str) (source : Source) :
    Prog sig (Option Err) := do
  match ← perform (.store session temporary ctx source) with
  | some err =>
    let _ ← perform (.delete session temporary)
    return some err
  | none =>
    match ← perform (.ctxErr ctx) with
    | some err =>
      let _ ← perform (.delete session temporary)
      return some err.err
    | none =>
      match ← perform (.rename session temporary destination) with
      | some err =>
        let _ ← perform (.delete session temporary)
        return some err
      | none => return none

/-- `write`. -/
def writeLocked (ctx : Ctx) (session : Session) (path : Path) (source : Source) :
    Prog sig (Option Err) := do
  match ← rejectLink a session path false with
  | some err => return some err
  | none =>
    let destination := a.remotePath path
    match ← perform (.stat session destination) with
    | .ok _ => return some (unsupported "ftp" .write .write)
    | .error err =>
      if !isNotFound err then return some err
      else
        match ← makeDirectories session (PathName.dir destination) with
        | some err => return some err
        | none =>
          match ← perform .random with
          | .error err => return some (.wrap "ftp: generate temporary path: %w" [] err)
          | .ok random =>
            upload ctx session (temporaryPath (PathName.dir destination) random) destination source

/-- `Write`. -/
def write (ctx : Ctx) (path : Path) (source : Source) (options : WriteOptions) :
    Prog sig (Except Err Metadata) := do
  if path.isRoot then return .error Remote.objectPathIsRoot
  else if options.ifNoneMatch then return .error (unsupported "ftp" .write .write)
  else
    perform .opLock
    match ← currentSession ctx with
    | .error err =>
      perform .opUnlock
      return .error (mapError path err)
    | .ok session =>
      let err ← writeLocked a ctx session path source
      perform .opUnlock
      match err with
      | some err => return .error (mapError path err)
      | none => stat a ctx path

/-- `Adapter.Close`. -/
def close : Prog sig (Option Err) := do
  abortTransfer
  perform .opLock
  let err ← client.close
  perform .opUnlock
  return err

/-! ## Read streams -/

/-- `prepareOpen`. -/
def prepareOpen (ctx : Ctx) (session : Session) (path : Path) :
    Prog sig (Except Err (Session × RemoteEntry)) := do
  match ← checkedStat a path session with
  | .ok entry => return .ok (session, entry)
  | .error err =>
    if isConnectionError err then
      invalidate session
      match ← currentSession ctx with
      | .error reconnectErr => return .error (.join err reconnectErr)
      | .ok reconnected =>
        match ← checkedStat a path reconnected with
        | .error err => return .error err
        | .ok entry => return .ok (reconnected, entry)
    else return .error err

/-- `Open`, by the call `n`: the error, if no stream is returned. -/
def openStream (n : StreamId) (ctx : Ctx) (path : Path) : Prog sig (Option Err) := do
  match ← perform (.ctxErr ctx) with
  | some err => return some err.err
  | none =>
    perform .opLock
    match ← currentSession ctx with
    | .error err =>
      perform .opUnlock
      return some err
    | .ok session =>
      match ← prepareOpen a ctx session path with
      | .error err =>
        perform .opUnlock
        return some (mapError path err)
      | .ok (session, entry) =>
        if entry.directory then
          perform .opUnlock
          return some (.new "ftp: cannot open directory %q" [path.value])
        else
          perform (.start n session ctx path)
          return none

/-- `Retrieve` into a `countingWriter`: the error, and `wroteAny`.  The session
learns what each write returned and does with it what it likes. -/
def retrieve (n : StreamId) (session : Session) (name : Str) (wroteAny : Bool) :
    Prog sig (Option Err × Bool) := do
  perform (.retrieve session name)
  Prog.loop (fun wroteAny ↦ do
    match ← perform (.retrieving session) with
    | .write bytes =>
      let (written, _) ← Pipe.write (fun c ↦ perform (.pipe n c)) bytes
      return .inl (wroteAny || 0 < written)
    | .done err => return .inr (err, wroteAny)) wroteAny

/-- The attempts of `transfer`: one, and one more if nothing was delivered. -/
def attempts (n : StreamId) (session : Session) (ctx : Ctx) (path : Path) :
    Prog sig (Option Err) := do
  match ← retrieve n session (a.remotePath path) false with
  | (none, _) => return none
  | (some err, wroteAny) =>
    if isConnectionError err && !wroteAny then
      match ← perform (.ctxErr ctx) with
      | some _ => return some err
      | none =>
        invalidate session
        match ← currentSession ctx with
        | .error reconnectErr => return some (.join err reconnectErr)
        | .ok reconnected =>
          let (err, _) ← retrieve n reconnected (a.remotePath path) wroteAny
          return err
    else return some err

/-- `transfer`. -/
def transfer (n : StreamId) : Prog sig Unit := do
  let (session, ctx, path) ← perform (.beginTransfer n)
  let err ← attempts a n session ctx path
  let contextErr ← perform (.ctxErr ctx)
  let err := (contextErr.map CtxErr.err) <|> err
  perform (.pipe n (.closeWrite (err.map (mapError path))))
  perform (.closeDone n)
  perform .opUnlock

/-- `watchCancellation`. -/
def watchCancellation (n : StreamId) : Prog sig Unit := do
  let ctx ← perform (.beginWatch n)
  if ← perform (.select n ctx) then
    let err ← perform (.ctxErr ctx)
    perform (.pipe n (.closeRead (err.map CtxErr.err)))
    abortTransfer
    perform (.endSelect n)

/-- `readStream.Read`. -/
def read (n : StreamId) : Prog sig (Str × Option Err) := do
  let ctx ← perform (.useStream n)
  if ← perform (.ctxDone ctx) then
    let err ← perform (.ctxErr ctx)
    return ([], err.map CtxErr.err)
  else
    match ← Pipe.read fun c ↦ perform (.pipe n c) with
    | .ok data => return (data, none)
    | .error err => return ([], some err)

/-- `readStream.Close`. -/
def closeStream (n : StreamId) : Prog sig (Option Err) := do
  let ctx ← perform (.useStream n)
  if ← perform (.onceDo n) then
    perform (.pipe n (.closeRead none))
    abortTransfer
    perform (.onceDone n)
  perform (.awaitDone n)
  let err ← perform (.ctxErr ctx)
  return err.map CtxErr.err

/-! ## Calls -/

/-- A call of a method of the adapter or of one of its streams, or the
cancellation of a context.  A streaming writer calls `Write`. -/
inductive Call where
  | openStream (ctx : Ctx) (path : Path)
  | read (stream : StreamId)
  | closeStream (stream : StreamId)
  | write (ctx : Ctx) (path : Path) (source : Source) (options : WriteOptions)
  | delete (ctx : Ctx) (path : Path)
  | stat (ctx : Ctx) (path : Path)
  | list (ctx : Ctx) (directory : Path) (options : ListOptions)
  | close
  | cancel (ctx : Ctx) (err : CtxErr)

inductive Outcome where
  | err (err : Option Err)
  | read (data : Str) (err : Option Err)
  | metadata (result : Except Err Metadata)
  | entries (result : Except Err (List Entry))

/-- The call `n`. -/
def Call.run (n : Nat) : Call → Prog sig Outcome
  | .openStream ctx path => return .err (← Ftp.openStream a n ctx path)
  | .read stream => do
    let (data, err) ← Ftp.read stream
    return .read data err
  | .closeStream stream => return .err (← Ftp.closeStream stream)
  | .write ctx path source options => return .metadata (← Ftp.write a ctx path source options)
  | .delete ctx path => return .err (← Ftp.delete a ctx path)
  | .stat ctx path => return .metadata (← Ftp.stat a ctx path)
  | .list ctx directory options => return .entries (← Ftp.list a ctx directory options)
  | .close => return .err (← Ftp.close)
  | .cancel ctx err => do
    perform (.cancel ctx err)
    return .err none

end GoFilesystem.Ftp
