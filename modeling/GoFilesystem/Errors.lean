import GoFilesystem.Go.Pipe
import GoFilesystem.Path

/-!
# Error values

A Go error is a tree: a value with an identity, or a value that wraps others.
`errors.Is` and `errors.As` walk the tree, so what an operation returns is
classified by its leaves, while `==` compares identities.  `Err` keeps both:
the leaves the repository tests for, and the wrappers it builds, each with the
format text of its source and the strings formatted into it.
-/

namespace GoFilesystem

open Go

/-- A capability of an adapter (`capability.go`). -/
inductive Capability where
  | read
  | write
  | delete
  | list
  | stat
  | copy
  | move
  | rangeRead
  | metadata
  | checksum
  | temporaryURL
  | visibility
  | multipart
  | streamingWrite
deriving DecidableEq, Repr

/-- A public action, as named in errors and events (`errors.go`). -/
inductive Operation where
  | read
  | write
  | delete
  | list
  | stat
  | copy
  | move
  | rangeRead
  | setMetadata
  | checksum
  | temporaryURL
  | visibility
  | setVisibility
deriving DecidableEq, Repr

/-- The error values that are compared by identity. -/
inductive Sentinel where
  | eof
  | unexpectedEOF
  | closedPipe
  | shortWrite
  | netClosed
  | canceled
  | deadlineExceeded
  | notExist
  | exist
  | fileUnavailable
  | invalidPath
  | unsupportedCapability
  | notFound
  | alreadyExists
  | invalidRange
  | preconditionFailed
  | invalid
  | notDirectory
  | isDirectory
  | fsClosed
  | connectionLost
  | noConnection
  | noSuchFile
  | opUnsupported
deriving DecidableEq, Repr

/-- A non-nil Go error. -/
inductive Err where
  /-- One of the values above. -/
  | sentinel (s : Sentinel)
  /-- `errors.New`, or `fmt.Errorf` without `%w`. -/
  | new (format : String) (args : List Str)
  /-- `fmt.Errorf` with one `%w`. -/
  | wrap (format : String) (args : List Str) (err : Err)
  /-- `errors.Join`, or `fmt.Errorf` with a second `%w`. -/
  | join (first second : Err)
  /-- `*CapabilityError`. -/
  | capability (adapter : String) (capability : Capability) (operation : Operation)
  /-- `*net.OpError`. -/
  | opError (err : Err)
  /-- `*ftp.ProtocolError`. -/
  | protocolError (code : Nat)
  /-- `*sftp.StatusError`. -/
  | statusError (code : Nat)
deriving DecidableEq, Repr

namespace Err

/-- `errors.Is` for a target compared by identity. -/
def is (target : Sentinel) : Err → Bool
  | .sentinel s => s == target
  | .new _ _ => false
  | .wrap _ _ err => err.is target
  | .join first second => first.is target || second.is target
  | .capability _ _ _ => target == .unsupportedCapability
  | .opError err => err.is target
  | .protocolError _ | .statusError _ => false

/-- `errors.As` for `*net.OpError`. -/
def hasOpError : Err → Bool
  | .wrap _ _ err => err.hasOpError
  | .join first second => first.hasOpError || second.hasOpError
  | .opError _ => true
  | _ => false

/-- `errors.As` for `*ftp.ProtocolError`: the code of the first one found. -/
def protocolCode : Err → Option Nat
  | .wrap _ _ err => err.protocolCode
  | .join first second => first.protocolCode <|> second.protocolCode
  | .opError err => err.protocolCode
  | .protocolError code => some code
  | _ => none

/-- `errors.As` for `*sftp.StatusError`: the code of the first one found. -/
def statusCode : Err → Option Nat
  | .wrap _ _ err => err.statusCode
  | .join first second => first.statusCode <|> second.statusCode
  | .opError err => err.statusCode
  | .statusError code => some code
  | _ => none

end Err

def failure {α : Type} : Except Err α → Option Err
  | .error err => some err
  | .ok _ => none

/-- The errors that a pipe reports by itself. -/
instance : Pipe.Errors Err where
  eof := .sentinel .eof
  closedPipe := .sentinel .closedPipe

/-- What `ctx.Err()` returns once the context is done. -/
inductive CtxErr where
  | canceled
  | deadlineExceeded
deriving DecidableEq, Repr

def CtxErr.err : CtxErr → Err
  | .canceled => .sentinel .canceled
  | .deadlineExceeded => .sentinel .deadlineExceeded

def PathReason.text : PathReason → String
  | .empty => "path is empty"
  | .platformSpecific => "platform-specific path"
  | .controlCharacter => "control character"
  | .parentSegment => "parent segment"
  | .noSegments => "path has no segments"

/-- `invalidPath`. -/
def PathError.err (e : PathError) : Err :=
  .wrap "%w %q: %s" [e.value, .lit e.reason.text] (.sentinel .invalidPath)

/-- `Unsupported`. -/
def unsupported (adapter : String) (capability : Capability) (operation : Operation) : Err :=
  .capability adapter capability operation

end GoFilesystem
