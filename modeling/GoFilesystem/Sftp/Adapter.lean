import GoFilesystem.Remote.Session

/-!
# The SFTP adapter

`sftp.go`.  One session serves any number of operations at once; `mu` guards the
field that holds it, and no operation holds `mu` while it talks to the server.  A
stream is a remote file with a goroutine that closes it when its context is done.
Each method is a program over the commands below; what the server, the connector,
the caller's source and the source of random bytes answer is a response.

A call is known by a number, and a stream by the number of the call that opened
it: of `Open` or `OpenRange`, which return the stream, or of `Copy` or `Checksum`,
which read it.  The goroutine of a stream waits until it is opened.

The handling of the session and the walk of `list` are those of the FTP adapter too,
and are written down in `Remote.Session`; `client` says what they are here.
-/

namespace GoFilesystem.Sftp

open Go Conc

abbrev Session := Nat

abbrev Ctx := Nat

abbrev StreamId := Nat

/-- A remote file, which belongs to the session that opened it. -/
structure File where
  session : Session := 0
  handle : Nat := 0
deriving DecidableEq

abbrev Info := Remote.Child

inductive Cmd where
  /-- `ctx.Err()`. -/
  | ctxErr (ctx : Ctx)
  /-- Whether `<-ctx.Done()` would be received from. -/
  | ctxDone (ctx : Ctx)
  /-- The context's `cancel`, or its deadline. -/
  | cancel (ctx : Ctx) (err : CtxErr)
  | lock
  | unlock
  | loadClosed
  | storeClosed
  | loadSession
  | storeSession (session : Option Session)
  /-- `a.connector(ctx)`. -/
  | connect (ctx : Ctx)
  /-- `io.ReadFull(a.random, random[:])`. -/
  | random
  /-- `session.Open`: the handle of the file. -/
  | openFile (session : Session) (name : Str)
  /-- `session.OpenFile` with the flags of a new file: its handle. -/
  | create (session : Session) (name : Str)
  | stat (session : Session) (name : Str)
  | lstat (session : Session) (name : Str)
  /-- `session.ReadDirContext`. -/
  | readDir (session : Session) (ctx : Ctx) (name : Str)
  | remove (session : Session) (name : Str)
  | mkdirAll (session : Session) (name : Str)
  | rename (session : Session) (oldName newName : Str)
  | posixRename (session : Session) (oldName newName : Str)
  /-- `session.Close`. -/
  | closeSession (session : Session)
  | seek (file : File) (offset : Int)
  /-- `file.Read`, of at most so many bytes. -/
  | readFile (file : File) (limit : Option Nat)
  | writeFile (file : File) (bytes : Str)
  | sync (file : File)
  | closeFile (file : File)
  /-- A read from the caller's source. -/
  | source
  /-- `newContextReadCloser`, with the bytes that may be read. -/
  | start (stream : StreamId) (ctx : Ctx) (file : File) (limit : Option Nat)
  /-- The start of the goroutine of a stream. -/
  | beginWatch (stream : StreamId)
  /-- Use of a stream that has been opened. -/
  | useStream (stream : StreamId)
  /-- Bytes read from a stream. -/
  | consume (stream : StreamId) (count : Nat)
  /-- The `select` of the goroutine: whether it takes the first branch. -/
  | select (stream : StreamId) (ctx : Ctx)
  /-- `closeOnce.Do`: whether this call is the first. -/
  | onceDo (stream : StreamId)
  /-- The end of the function under `closeOnce.Do`. -/
  | onceDone (stream : StreamId)
  /-- `close(r.done)`. -/
  | closeDone (stream : StreamId)
  | storeCloseErr (stream : StreamId) (err : Option Err)
  | loadCloseErr (stream : StreamId)

@[reducible] def Cmd.Resp : Cmd → Type
  | .ctxErr _ => Option CtxErr
  | .ctxDone _ | .loadClosed | .select _ _ | .onceDo _ => Bool
  | .loadSession => Option Session
  | .connect _ => Except Err Session
  | .random => Except Err Str
  | .openFile _ _ | .create _ _ => Except Err Nat
  | .stat _ _ | .lstat _ _ => Except Err Info
  | .readDir _ _ _ => Except Err (List Info)
  | .remove _ _ | .mkdirAll _ _ | .rename _ _ _ | .posixRename _ _ _ | .closeSession _ | .seek _ _
  | .sync _ | .closeFile _ | .loadCloseErr _ => Option Err
  | .readFile _ _ | .source => Str × Option Err
  | .writeFile _ _ => Nat × Option Err
  | .beginWatch _ => Ctx
  | .useStream _ => Ctx × File × Option Nat
  | _ => Unit

@[reducible] def sig : Sig := ⟨Cmd, Cmd.Resp⟩

def perform (c : Cmd) : Prog sig c.Resp := Prog.perform (S := sig) c

/-! ## Errors -/

/-- `isConnectionError` of an error that is not nil. -/
def isConnectionError (err : Err) : Bool :=
  err.is .connectionLost || err.is .noConnection || err.is .eof || err.is .netClosed ||
    err.hasOpError

/-- `isNotFound` of an error that is not nil. -/
def isNotFound (err : Err) : Bool := err.is .notExist || err.is .noSuchFile

/-- The code of `ErrSSHFxOpUnsupported`. -/
def opUnsupportedCode : Nat := 8

/-- `isOperationUnsupported` of an error that is not nil. -/
def isOperationUnsupported (err : Err) : Bool :=
  err.is .opUnsupported || err.statusCode = some opUnsupportedCode

/-- `mapError` of an error that is not nil. -/
def mapError (path : Path) (err : Err) : Err := Remote.mapError isNotFound path err

def linkIsDenied (name : Str) : Err := .new "sftp: symbolic link %q is denied" [name]

/-- The error of a range that `validByteRange` rejects. -/
def invalidRange (byteRange : ByteRange) : Err :=
  .wrap "%w: offset=%d length=%d"
    [.lit (toString byteRange.offset), .lit (toString byteRange.length)] (.sentinel .invalidRange)

/-! ## Names and limits -/

/-- The fields of the adapter that never change. -/
structure Adapter where
  root : Str
  maxList : Int
  /-- Whether the POSIX rename extension was negotiated. -/
  atomicRename : Bool

variable (a : Adapter)

/-- `remotePath`. -/
def Adapter.remotePath (path : Path) : Str := Remote.remoteName a.root path

/-- `effectiveListLimit`. -/
def effectiveListLimit (requested maximum : Int) : Int :=
  Remote.effectiveListLimit requested maximum

/-- `validByteRange`, of a range of two `int64`.  The difference does not overflow
once the offset is known not to be negative. -/
def validByteRange (byteRange : ByteRange) : Bool :=
  if byteRange.offset < 0 || byteRange.length ≤ 0 then false
  else byteRange.length - 1 ≤ 2 ^ 63 - 1 - byteRange.offset

/-- `temporaryPath`, once the random bytes are read. -/
def temporaryPath (directory random : Str) : Str := Remote.temporaryPath directory random

/-- The names that `rejectSymlinks` looks at. -/
def Adapter.linkCandidates (path : Path) (includeFinal : Bool) : List Str :=
  Remote.linkCandidates a.root path includeFinal

/-! ## The session -/

def client : Remote.Client sig where
  cmd
    | .ctxErr ctx => .ctxErr ctx
    | .lock => .lock
    | .unlock => .unlock
    | .loadClosed => .loadClosed
    | .storeClosed => .storeClosed
    | .loadSession => .loadSession
    | .storeSession session => .storeSession session
    | .connect ctx => .connect ctx
    | .release session => .closeSession session
    | .lstat session name => .lstat session name
    | .stat session name => .stat session name
  resp
    | .ctxErr _ | .lock | .unlock | .loadClosed | .storeClosed | .loadSession | .storeSession _
    | .connect _ | .release _ | .lstat _ _ | .stat _ _ => .refl _
  isConnectionError
  isNotFound
  linkIsDenied
  readDir ctx session name := perform (.readDir session ctx name)

/-- `currentSession`. -/
def currentSession (ctx : Ctx) : Prog sig (Except Err Session) := client.currentSession ctx

/-- `withSession`. -/
def withSession {α : Type} (ctx : Ctx) (retry : Bool)
    (operation : Session → Prog sig (Except Err α)) : Prog sig (Except Err α) :=
  client.withSession ctx retry operation

/-- `Adapter.Close`. -/
def close : Prog sig (Option Err) := client.close

/-- `rejectSymlinks`. -/
def rejectSymlinks (session : Session) (path : Path) (includeFinal : Bool) :
    Prog sig (Option Err) :=
  client.rejectLinks session (a.linkCandidates path includeFinal)

/-! ## Streams -/

/-- `contextReader.Read`. -/
def contextRead (ctx : Ctx) (read : Prog sig (Str × Option Err)) : Prog sig (Str × Option Err) := do
  if ← perform (.ctxDone ctx) then
    let err ← perform (.ctxErr ctx)
    return ([], err.map CtxErr.err)
  else read

/-- The operation of `Open`. -/
def openFile (path : Path) (session : Session) : Prog sig (Except Err File) := do
  match ← rejectSymlinks a session path true with
  | some err => return .error err
  | none =>
    match ← perform (.openFile session (a.remotePath path)) with
    | .error err => return .error err
    | .ok handle => return .ok { session, handle }

/-- The operation of `OpenRange`. -/
def openFileAt (path : Path) (offset : Int) (session : Session) : Prog sig (Except Err File) := do
  match ← openFile a path session with
  | .error err => return .error err
  | .ok opened =>
    match ← perform (.seek opened offset) with
    | some err =>
      let _ ← perform (.closeFile opened)
      return .error err
    | none => return .ok opened

/-- `Open`, by the call `n`: the error, if no stream is returned. -/
def openStream (n : StreamId) (ctx : Ctx) (path : Path) : Prog sig (Option Err) := do
  match ← withSession ctx true (openFile a path) with
  | .error err => return some (mapError path err)
  | .ok file =>
    perform (.start n ctx file none)
    return none

/-- `OpenRange`, by the call `n`: the error, if no stream is returned. -/
def openRange (n : StreamId) (ctx : Ctx) (path : Path) (byteRange : ByteRange) :
    Prog sig (Option Err) := do
  if !validByteRange byteRange then return some (invalidRange byteRange)
  else
    match ← withSession ctx true (openFileAt a path byteRange.offset) with
    | .error err => return some (mapError path err)
    | .ok file =>
      perform (.start n ctx file (some byteRange.length.toNat))
      return none

/-- `contextReadCloser.Read`, behind the `io.LimitReader` of `OpenRange` if there
is one. -/
def read (n : StreamId) : Prog sig (Str × Option Err) := do
  let (ctx, file, limit) ← perform (.useStream n)
  if limit = some 0 then return ([], some (.sentinel .eof))
  else
    contextRead ctx do
      let (data, err) ← perform (.readFile file limit)
      perform (.consume n data.length)
      return (data, err)

/-- `contextReadCloser.Close`. -/
def closeStream (n : StreamId) : Prog sig (Option Err) := do
  let (_, file, _) ← perform (.useStream n)
  if ← perform (.onceDo n) then
    perform (.closeDone n)
    let err ← perform (.closeFile file)
    perform (.storeCloseErr n err)
    perform (.onceDone n)
  perform (.loadCloseErr n)

/-- The goroutine of `newContextReadCloser`. -/
def watch (n : StreamId) : Prog sig Unit := do
  let ctx ← perform (.beginWatch n)
  if ← perform (.select n ctx) then
    let _ ← closeStream n

/-! ## Operations -/

/-- The operation of `Stat`. -/
def checkedStat (path : Path) (session : Session) : Prog sig (Except Err Info) :=
  client.checkedStat a.root path session

/-- `Stat`. -/
def stat (ctx : Ctx) (path : Path) : Prog sig (Except Err Metadata) := do
  match ← withSession ctx true (checkedStat a path) with
  | .error err => return .error (mapError path err)
  | .ok info => return .ok (Remote.metadataOf path info)

/-- `io.Copy`'s write of what a read returned, if that is anything. -/
def writeFile (file : File) (data : Str) : Prog sig (Option Err) :=
  if data = [] then return none
  else do
    let (written, err) ← perform (.writeFile file data)
    match err with
    | some err => return some err
    | none => return if written ≠ data.length then some (.sentinel .shortWrite) else none

/-- One round of `io.Copy` into a file. -/
def copyNext (ctx : Ctx) (file : File) (source : Prog sig (Str × Option Err)) :
    Prog sig (Unit ⊕ Option Err) := do
  let (data, readErr) ← contextRead ctx source
  match ← writeFile file data with
  | some err => return .inr (some err)
  | none =>
    match readErr with
    | none => return .inl ()
    | some err => return .inr (if err = .sentinel .eof then none else some err)

def publish (session : Session) (temporary remotePath : Str) : Prog sig (Option Err) :=
  if a.atomicRename then perform (.posixRename session temporary remotePath)
  else perform (.rename session temporary remotePath)

/-- The `cleanup` of a failed upload. -/
def cleanup (file : File) (temporary : Str) (err : Err) : Prog sig (Except Err Unit) := do
  let _ ← perform (.closeFile file)
  let _ ← perform (.remove file.session temporary)
  return .error err

/-- `Write` from the creation of the temporary file to its publication. -/
def upload (ctx : Ctx) (session : Session) (path : Path) (temporary : Str)
    (source : Prog sig (Str × Option Err)) : Prog sig (Except Err Unit) := do
  match ← perform (.create session temporary) with
  | .error err => return .error (mapError path err)
  | .ok handle =>
    let file : File := { session, handle }
    match ← Prog.loop (fun _ ↦ copyNext ctx file source) () with
    | some err => cleanup file temporary err
    | none =>
      match ← perform (.ctxErr ctx) with
      | some err => cleanup file temporary err.err
      | none =>
        match (← perform (.sync file) : Option Err).filter fun err ↦
          !isOperationUnsupported err with
        | some err => cleanup file temporary err
        | none =>
          match ← perform (.closeFile file) with
          | some err =>
            let _ ← perform (.remove session temporary)
            return .error err
          | none =>
            match ← publish a session temporary (a.remotePath path) with
            | some err =>
              let _ ← perform (.remove session temporary)
              return .error (mapError path err)
            | none => return .ok ()

/-- The look at the destination before `Write` begins: the error that ends it. -/
def precheck (path : Path) : Except Err Info → Option Err
  | .ok _ => if a.atomicRename then none else some (unsupported "sftp" .write .write)
  | .error err => if isNotFound err then none else some (mapError path err)

/-- `Write` of a source. -/
def writeFrom (ctx : Ctx) (path : Path) (source : Prog sig (Str × Option Err))
    (options : WriteOptions) : Prog sig (Except Err Metadata) := do
  if path.isRoot then return .error Remote.objectPathIsRoot
  else if options.ifNoneMatch then return .error (unsupported "sftp" .write .write)
  else
    match ← currentSession ctx with
    | .error err => return .error err
    | .ok session =>
      match ← rejectSymlinks a session path false with
      | some err => return .error (mapError path err)
      | none =>
        match precheck a path (← perform (.stat session (a.remotePath path))) with
        | some err => return .error err
        | none =>
          let directory := PathName.dir (a.remotePath path)
          match ← perform (.mkdirAll session directory) with
          | some err => return .error (mapError path err)
          | none =>
            match ← perform .random with
            | .error err => return .error (.wrap "sftp: generate temporary path: %w" [] err)
            | .ok random =>
              match ← upload a ctx session path (temporaryPath directory random) source with
              | .error err => return .error err
              | .ok () => stat a ctx path

/-- `Write`, of what the caller's source returns. -/
def write (ctx : Ctx) (path : Path) (options : WriteOptions) : Prog sig (Except Err Metadata) :=
  writeFrom a ctx path (perform .source) options

/-- `Delete`. -/
def delete (ctx : Ctx) (path : Path) : Prog sig (Option Err) := do
  match ← currentSession ctx with
  | .error err => return some err
  | .ok session =>
    match ← rejectSymlinks a session path true with
    | some err => return some (mapError path err)
    | none =>
      match ← perform (.remove session (a.remotePath path)) with
      | some err => return some (mapError path err)
      | none => return none

/-- `list`. -/
def listTree (ctx : Ctx) (directory : Path) (recursive : Bool) (limit : Int) (session : Session) :
    Prog sig (Except Err (List Entry)) :=
  client.listTree a.root ctx directory recursive limit session

/-- `List`. -/
def list (ctx : Ctx) (directory : Path) (options : ListOptions) :
    Prog sig (Except Err (List Entry)) := do
  if options.limit < 0 then
    return .error (.new "sftp: list limit must not be negative" [])
  else
    let limit := effectiveListLimit options.limit a.maxList
    match ← withSession ctx true (listTree a ctx directory options.recursive limit) with
    | .error err => return .error (mapError directory err)
    | .ok entries => return .ok entries

/-- `Copy`, by the call `n`. -/
def copy (n : StreamId) (ctx : Ctx) (source destination : Path) (options : OverwriteOptions) :
    Prog sig (Option Err) := do
  if !options.overwrite then return some (unsupported "sftp" .copy .copy)
  else
    match ← openStream a n ctx source with
    | some err => return some err
    | none =>
      let result ← writeFrom a ctx destination (read n) {}
      let _ ← closeStream n
      match result with
      | .error err => return some err
      | .ok _ => return none

/-- `Move`. -/
def move (ctx : Ctx) (source destination : Path) (options : OverwriteOptions) :
    Prog sig (Option Err) := do
  if !a.atomicRename || !options.overwrite then return some (unsupported "sftp" .move .move)
  else
    match ← currentSession ctx with
    | .error err => return some err
    | .ok session =>
      match ← rejectSymlinks a session source true with
      | some err => return some (mapError source err)
      | none =>
        match ← rejectSymlinks a session destination false with
        | some err => return some (mapError destination err)
        | none =>
          match ← perform (.mkdirAll session (PathName.dir (a.remotePath destination))) with
          | some err => return some err
          | none =>
            match ← perform
              (.posixRename session (a.remotePath source) (a.remotePath destination)) with
            | some err => return some (mapError source err)
            | none => return none

/-- One round of `io.Copy` from a stream into a digest. -/
def digestNext (n : StreamId) (content : Str) : Prog sig (Str ⊕ Except Err Str) := do
  let (data, err) ← read n
  match err with
  | none => return .inl (content ++ data)
  | some err =>
    return .inr (if err = .sentinel .eof then .ok (content ++ data) else .error err)

/-- The digest that `Checksum` computes, or `none` for an algorithm it does not
know. -/
def digest (hashes : Hashes) : ChecksumAlgorithm → Option (Str → Str)
  | .md5 => some fun content ↦ hexEncode (hashes.md5 content)
  | .sha256 => some fun content ↦ hexEncode (hashes.sha256 content)
  | .crc32c => some fun content ↦ sprintf08x (hashes.crc32c content)
  | .other _ => none

/-- `Checksum`, by the call `n`. -/
def checksum (hashes : Hashes) (n : StreamId) (ctx : Ctx) (path : Path)
    (algorithm : ChecksumAlgorithm) : Prog sig (Except Err Checksum) := do
  match ← openStream a n ctx path with
  | some err => return .error err
  | none =>
    match digest hashes algorithm with
    | none =>
      let _ ← closeStream n
      return .error (unsupported "sftp" .checksum .checksum)
    | some sum =>
      let content ← Prog.loop (digestNext n) []
      let _ ← closeStream n
      match content with
      | .error err => return .error err
      | .ok content => return .ok { algorithm, value := sum content }

/-! ## Calls -/

/-- A call of a method of the adapter or of one of its streams, or the
cancellation of a context.  A streaming writer calls `Write`. -/
inductive Call where
  | openStream (ctx : Ctx) (path : Path)
  | openRange (ctx : Ctx) (path : Path) (byteRange : ByteRange)
  | read (stream : StreamId)
  | closeStream (stream : StreamId)
  | write (ctx : Ctx) (path : Path) (options : WriteOptions)
  | delete (ctx : Ctx) (path : Path)
  | stat (ctx : Ctx) (path : Path)
  | list (ctx : Ctx) (directory : Path) (options : ListOptions)
  | copy (ctx : Ctx) (source destination : Path) (options : OverwriteOptions)
  | move (ctx : Ctx) (source destination : Path) (options : OverwriteOptions)
  | checksum (hashes : Hashes) (ctx : Ctx) (path : Path) (algorithm : ChecksumAlgorithm)
  | close
  | cancel (ctx : Ctx) (err : CtxErr)

inductive Outcome where
  | err (err : Option Err)
  | read (data : Str) (err : Option Err)
  | metadata (result : Except Err Metadata)
  | entries (result : Except Err (List Entry))
  | checksum (result : Except Err Checksum)

/-- The call `n`. -/
def Call.run (n : Nat) : Call → Prog sig Outcome
  | .openStream ctx path => return .err (← Sftp.openStream a n ctx path)
  | .openRange ctx path byteRange => return .err (← Sftp.openRange a n ctx path byteRange)
  | .read stream => do
    let (data, err) ← Sftp.read stream
    return .read data err
  | .closeStream stream => return .err (← Sftp.closeStream stream)
  | .write ctx path options => return .metadata (← Sftp.write a ctx path options)
  | .delete ctx path => return .err (← Sftp.delete a ctx path)
  | .stat ctx path => return .metadata (← Sftp.stat a ctx path)
  | .list ctx directory options => return .entries (← Sftp.list a ctx directory options)
  | .copy ctx source destination options =>
    return .err (← Sftp.copy a n ctx source destination options)
  | .move ctx source destination options =>
    return .err (← Sftp.move a ctx source destination options)
  | .checksum hashes ctx path algorithm =>
    return .checksum (← Sftp.checksum a hashes n ctx path algorithm)
  | .close => return .err (← Sftp.close)
  | .cancel ctx err => do
    perform (.cancel ctx err)
    return .err none

end GoFilesystem.Sftp
