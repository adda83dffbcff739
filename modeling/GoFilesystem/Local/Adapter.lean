import GoFilesystem.Conc.Prog
import GoFilesystem.Contracts
import GoFilesystem.Go.PathName
import GoFilesystem.Posix.Tree

/-!
# The local adapter

`local.go`, as far as it creates, replaces, moves, removes and reads files.  A
write fills an exclusive temporary file next to its destination, syncs and closes
it, and publishes it by a rename, or by a link if it must not replace anything; a
deferred function removes the temporary file unless that succeeded.  Each method
is a program over the calls on the root directory, on open files, on the context
and on the caller's source.

A call is known by a number, and a stream by the number of the call that opened
it: of `Open`, which returns the stream, or of `Copy`, which reads it.
-/

namespace GoFilesystem.Local

open Go Conc

abbrev Ctx := Nat

abbrev StreamId := Nat

/-- `fs.FileInfo`. -/
structure Info where
  directory : Bool := false
  link : Bool := false
  size : Nat := 0
  modified : Time := 0
deriving DecidableEq

/-- `SymlinkPolicy`. -/
inductive SymlinkPolicy where
  | denySymlinks
  | allowInternalSymlinks
deriving DecidableEq

/-- The commands of the adapter's calls.  An open file is known by its inode. -/
inductive Cmd where
  /-- `ctx.Err()`. -/
  | ctxErr (ctx : Ctx)
  /-- Whether `<-ctx.Done()` would be received from. -/
  | ctxDone (ctx : Ctx)
  /-- The context's `cancel`, or its deadline. -/
  | cancel (ctx : Ctx) (err : CtxErr)
  | lstat (name : Str)
  | stat (name : Str)
  /-- One directory of `MkdirAll`. -/
  | mkdir (name : Str) (final : Bool)
  /-- `io.ReadFull(a.random, random[:])`. -/
  | random
  /-- `OpenFile` with the `temporaryOpenFlags`. -/
  | create (name : Str)
  | writeFile (ino : Nat) (bytes : Str)
  | sync (ino : Nat)
  | closeFile (ino : Nat)
  | link (oldName newName : Str)
  | rename (oldName newName : Str)
  | renameNoReplace (oldName newName : Str)
  | remove (name : Str)
  /-- `a.root.Open`, for a stream that remembers its context. -/
  | openFile (name : Str) (ctx : Ctx)
  /-- Use of a stream that `Open` has returned. -/
  | useStream (stream : StreamId)
  | readFile (stream : StreamId)
  | closeStream (stream : StreamId)
  /-- A read from the caller's source. -/
  | source

@[reducible] def Cmd.Resp : Cmd → Type
  | .ctxErr _ => Option CtxErr
  | .ctxDone _ => Bool
  | .cancel _ _ => Unit
  | .lstat _ | .stat _ => Except Err Info
  | .random => Except Err Str
  | .create _ => Except Err Nat
  | .writeFile _ _ => Nat × Option Err
  | .useStream _ => Ctx
  | .readFile _ => Except Err Str
  | .source => Str × Option Err
  | _ => Option Err

@[reducible] def sig : Sig := ⟨Cmd, Cmd.Resp⟩

def perform (c : Cmd) : Prog sig c.Resp := Prog.perform (S := sig) c

/-! ## Errors and names -/

/-- `mapError`. -/
def mapError (path : Path) (err : Err) : Err :=
  if err.is .notExist then .wrap "%w: %s" [path.value] (.sentinel .notFound) else err

def objectPathIsRoot : Err := .wrap "%w: object path is root" [] (.sentinel .invalidPath)

def preconditionFailed (path : Path) : Err :=
  .wrap "%w: %s" [path.value] (.sentinel .preconditionFailed)

def moveConflict (destination : Path) (err : Err) : Err :=
  .join (.wrap "%w: %s: %w" [destination.value] (.sentinel .alreadyExists)) err

/-- The name of a temporary file in a directory, given the random bytes. -/
def temporaryName (directory random : Str) : Str :=
  let name := .lit ".filesystem-" ++ hexEncode random ++ .lit ".tmp"
  if directory = PathName.current then name else directory ++ slash :: name

/-- The names made of the first segments of a name, one segment after another. -/
def leadingNames (segments : List Str) : List Str :=
  (List.range segments.length).map fun index ↦ [slash].intercalate (segments.take (index + 1))

/-- The fields of the adapter that decide what its calls do. -/
structure Adapter where
  symlinkPolicy : SymlinkPolicy

variable (a : Adapter)

/-- The loop of `checkSymlinks`. -/
def checkSymlinksFrom (path : Path) : List Str → Prog sig (Option Err)
  | [] => return none
  | name :: names => do
    match ← perform (.lstat name) with
    | .error err => return if err.is .notExist then none else some (mapError path err)
    | .ok info =>
      if info.link then return some (.new "local: symbolic link %q is denied" [name])
      else checkSymlinksFrom path names

/-- `checkSymlinks`. -/
def checkSymlinks (path : Path) (includeFinal : Bool) : Prog sig (Option Err) :=
  if path.isRoot || a.symlinkPolicy = .allowInternalSymlinks then return none
  else
    let segments := path.value.splitOn slash
    let segments := if includeFinal then segments else segments.dropLast
    checkSymlinksFrom path (leadingNames segments)

/-- The directories of `MkdirAll`, the outermost first. -/
def mkdirAllFrom : List Str → Prog sig (Option Err)
  | [] => return none
  | name :: names => do
    match ← perform (.mkdir name names.isEmpty) with
    | some err => return some err
    | none => mkdirAllFrom names

/-- `a.root.MkdirAll` of the directory of a name, unless that is the root. -/
def mkdirParents (directory : Str) : Prog sig (Option Err) :=
  if directory = PathName.current then return none
  else mkdirAllFrom (leadingNames (directory.splitOn slash))

/-- The check before an operation that must not replace anything: the error if
the path exists, or if that cannot be found out. -/
def requireAbsent (path : Path) (present : Err) : Prog sig (Option Err) := do
  match ← perform (.stat path.value) with
  | .ok _ => return some present
  | .error err => return if err.is .notExist then none else some (mapError path err)

/-! ## Streams -/

/-- `contextReader.Read`, and `contextReadCloser.Read`. -/
def contextRead (ctx : Ctx) (read : Prog sig (Str × Option Err)) : Prog sig (Str × Option Err) := do
  if ← perform (.ctxDone ctx) then
    let err ← perform (.ctxErr ctx)
    return ([], err.map CtxErr.err)
  else read

/-- `file.Read` of a stream. -/
def readFile (stream : StreamId) : Prog sig (Str × Option Err) := do
  match ← perform (.readFile stream) with
  | .ok data => return (data, none)
  | .error err => return ([], some err)

/-- `Open`: the error, if no stream is returned. -/
def openStream (ctx : Ctx) (path : Path) : Prog sig (Option Err) := do
  match ← perform (.ctxErr ctx) with
  | some err => return some err.err
  | none =>
    match ← checkSymlinks a path true with
    | some err => return some err
    | none =>
      match ← perform (.openFile path.value ctx) with
      | some err => return some (mapError path err)
      | none => return none

/-- `Read` of a stream that `Open` returned. -/
def read (stream : StreamId) : Prog sig (Str × Option Err) := do
  let ctx ← perform (.useStream stream)
  contextRead ctx (readFile stream)

/-! ## Operations -/

/-- `Stat`. -/
def stat (ctx : Ctx) (path : Path) : Prog sig (Except Err Metadata) := do
  match ← perform (.ctxErr ctx) with
  | some err => return .error err.err
  | none =>
    match ← checkSymlinks a path true with
    | some err => return .error err
    | none =>
      match ← perform (.stat (if path.isRoot then PathName.current else path.value)) with
      | .error err => return .error (mapError path err)
      | .ok info =>
        return .ok {
          path
          kind := if info.directory then .directory else .file
          size := info.size
          modified := info.modified }

/-- `io.Copy`'s write of what a read returned, if that is anything. -/
def writeFile (ino : Nat) (data : Str) : Prog sig (Option Err) :=
  if data = [] then return none
  else do
    let (written, err) ← perform (.writeFile ino data)
    match err with
    | some err => return some err
    | none => return if written ≠ data.length then some (.sentinel .shortWrite) else none

/-- One round of `io.Copy` into a file. -/
def copyNext (ctx : Ctx) (ino : Nat) (source : Prog sig (Str × Option Err)) :
    Prog sig (Unit ⊕ Option Err) := do
  let (data, readErr) ← contextRead ctx source
  match ← writeFile ino data with
  | some err => return .inr (some err)
  | none =>
    match readErr with
    | none => return .inl ()
    | some err => return .inr (if err = .sentinel .eof then none else some err)

/-- Filling the temporary file: `io.Copy`, a look at the context, `Sync` and
`Close`. -/
def fill (ctx : Ctx) (ino : Nat) (source : Prog sig (Str × Option Err)) :
    Prog sig (Option Err) := do
  match ← Prog.loop (fun _ ↦ copyNext ctx ino source) () with
  | some err => return some err
  | none =>
    match ← perform (.ctxErr ctx) with
    | some err => return some err.err
    | none =>
      match ← perform (.sync ino) with
      | some err => return some (.wrap "local: sync temporary file: %w" [] err)
      | none =>
        match ← perform (.closeFile ino) with
        | some err => return some (.wrap "local: close temporary file: %w" [] err)
        | none => return none

def publish (temporary : Str) (path : Path) (ifNoneMatch : Bool) : Prog sig (Option Err) := do
  if ifNoneMatch then
    match ← perform (.link temporary path.value) with
    | some err =>
      return some (if err.is .exist then preconditionFailed path
        else .wrap "local: publish temporary file: %w" [] err)
    | none =>
      match ← perform (.remove temporary) with
      | some err => return some (.wrap "local: remove published temporary file: %w" [] err)
      | none => return none
  else
    match ← perform (.rename temporary path.value) with
    | some err => return some (.wrap "local: publish temporary file: %w" [] err)
    | none => return none

/-- The deferred function of a `Write` that returns an error before it is
committed. -/
def abandon (ino : Nat) (temporary : Str) (err : Err) : Prog sig (Except Err Metadata) := do
  let _ ← perform (.closeFile ino)
  let _ ← perform (.remove temporary)
  return .error err

/-- `Write` from the creation of the temporary file on. -/
def writeTemporary (ctx : Ctx) (path : Path) (temporary : Str)
    (source : Prog sig (Str × Option Err)) (ifNoneMatch : Bool) :
    Prog sig (Except Err Metadata) := do
  match ← perform (.create temporary) with
  | .error err => return .error (.wrap "local: create temporary file: %w" [] err)
  | .ok ino =>
    match ← fill ctx ino source with
    | some err => abandon ino temporary err
    | none =>
      match ← publish temporary path ifNoneMatch with
      | some err => abandon ino temporary err
      | none =>
        let result ← stat a ctx path
        let _ ← perform (.closeFile ino)
        return result

/-- `Write` of a source. -/
def writeFrom (ctx : Ctx) (path : Path) (source : Prog sig (Str × Option Err))
    (ifNoneMatch : Bool) : Prog sig (Except Err Metadata) := do
  if path.isRoot then return .error objectPathIsRoot
  else
    match ← perform (.ctxErr ctx) with
    | some err => return .error err.err
    | none =>
      match ← checkSymlinks a path false with
      | some err => return .error err
      | none =>
        match ← (if ifNoneMatch then requireAbsent path (preconditionFailed path)
          else pure none) with
        | some err => return .error err
        | none =>
          let directory := PathName.dir path.value
          match ← mkdirParents directory with
          | some err => return .error (.wrap "local: create parent directories: %w" [] err)
          | none =>
            match ← perform .random with
            | .error err => return .error (.wrap "local: generate temporary name: %w" [] err)
            | .ok random =>
              writeTemporary a ctx path (temporaryName directory random) source ifNoneMatch

/-- `Write`, of what the caller's source returns. -/
def write (ctx : Ctx) (path : Path) (options : WriteOptions) : Prog sig (Except Err Metadata) :=
  writeFrom a ctx path (perform .source) options.ifNoneMatch

/-- `Copy`, by the call `n`. -/
def copy (n : StreamId) (ctx : Ctx) (source destination : Path) (options : OverwriteOptions) :
    Prog sig (Option Err) := do
  match ← (if options.overwrite then pure none
    else requireAbsent destination
      (.wrap "%w: %s" [destination.value] (.sentinel .alreadyExists))) with
  | some err => return some err
  | none =>
    match ← openStream a ctx source with
    | some err => return some err
    | none =>
      let result ← writeFrom a ctx destination (contextRead ctx (readFile n)) !options.overwrite
      let _ ← perform (.closeStream n)
      match result with
      | .error err => return some err
      | .ok _ => return none

/-- `Move`. -/
def move (ctx : Ctx) (source destination : Path) (options : OverwriteOptions) :
    Prog sig (Option Err) := do
  match ← perform (.ctxErr ctx) with
  | some err => return some err.err
  | none =>
    match ← checkSymlinks a source true with
    | some err => return some err
    | none =>
      match ← checkSymlinks a destination false with
      | some err => return some err
      | none =>
        match ← (if options.overwrite then pure none
          else requireAbsent destination (moveConflict destination (.sentinel .exist))) with
        | some err => return some err
        | none =>
          match ← mkdirParents (PathName.dir destination.value) with
          | some err => return some err
          | none =>
            if options.overwrite then
              match ← perform (.rename source.value destination.value) with
              | some err => return some (mapError source err)
              | none => return none
            else
              match ← perform (.renameNoReplace source.value destination.value) with
              | some err =>
                return some (if err.is .exist then moveConflict destination err
                  else mapError source err)
              | none => return none

/-- `Delete`. -/
def delete (ctx : Ctx) (path : Path) : Prog sig (Option Err) := do
  match ← perform (.ctxErr ctx) with
  | some err => return some err.err
  | none =>
    match ← checkSymlinks a path true with
    | some err => return some err
    | none =>
      match ← perform (.remove path.value) with
      | some err => return some (mapError path err)
      | none => return none

/-! ## Calls -/

/-- A call of a method of the adapter or of one of its streams, or the
cancellation of a context.  A streaming writer calls `Write`. -/
inductive Call where
  | write (ctx : Ctx) (path : Path) (options : WriteOptions)
  | copy (ctx : Ctx) (source destination : Path) (options : OverwriteOptions)
  | move (ctx : Ctx) (source destination : Path) (options : OverwriteOptions)
  | delete (ctx : Ctx) (path : Path)
  | openStream (ctx : Ctx) (path : Path)
  | read (stream : StreamId)
  | stat (ctx : Ctx) (path : Path)
  | cancel (ctx : Ctx) (err : CtxErr)

inductive Outcome where
  | err (err : Option Err)
  | read (data : Str) (err : Option Err)
  | metadata (result : Except Err Metadata)

/-- The call `n`. -/
def Call.run (n : Nat) : Call → Prog sig Outcome
  | .write ctx path options => return .metadata (← Local.write a ctx path options)
  | .copy ctx source destination options =>
    return .err (← Local.copy a n ctx source destination options)
  | .move ctx source destination options =>
    return .err (← Local.move a ctx source destination options)
  | .delete ctx path => return .err (← Local.delete a ctx path)
  | .openStream ctx path => return .err (← Local.openStream a ctx path)
  | .read stream => do
    let (data, err) ← Local.read stream
    return .read data err
  | .stat ctx path => return .metadata (← Local.stat a ctx path)
  | .cancel ctx err => do
    perform (.cancel ctx err)
    return .err none

end GoFilesystem.Local
