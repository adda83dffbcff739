import GoFilesystem.Contracts

/-!
# Decorators

`decorator/decorator.go`: a policy wrapper around any backend.  `decorate`
turns a configuration and a backend into a backend, so that decorators stack.

Every method is wrapped in `observeCall`, and the methods that only read are
retried by `retryCall`.  `internal` maps a path of the caller to a path of the
backend with `MustParsePath`; the panic is kept in the model and excluded by
`internal_eq`.
-/

namespace GoFilesystem.Decorator

open Go Method

/-- `RetryPolicy`, with what `WithRetry` checks of it. -/
structure RetryPolicy where
  attempts : Nat
  attempts_pos : 0 < attempts
  retryable : Err → Bool
  backoff : Option (Nat → Int) := none

/-- The configuration of an `Adapter`, less its backend. -/
structure Config where
  prefixPath : Path := .root
  readOnly : Bool := false
  checksums : Bool := false
  retry : Option RetryPolicy := none
  observed : Bool := false

variable {σ α : Type}

/-- `observeCall`: the event goes out after the call. -/
def observeCall {α : Type} (config : Config) (operation : Operation) (path destination : Path)
    (errOf : α → Option Err) (call : Method σ α) : Method σ α := do
  let result ← call
  if config.observed then
    emit { operation, path, destination, error := errOf result }
  return result

def errorOf {α : Type} : Except Err α → Option Err
  | .error err => some err
  | .ok _ => none

/-- The loop of `retryCall` with `remaining` attempts to follow this one.
Waiting for the timer or the context is one more look at the context: an error
there is the context winning, and how long the timer runs does not matter. -/
def retryFrom (policy : RetryPolicy) (zero : α) (call : Method σ (α × Option Err)) :
    Nat → Method σ (α × Option Err)
  | 0 => do
    match ← ctxErr with
    | some err => return (zero, some err)
    | none => call
  | remaining + 1 => do
    match ← ctxErr with
    | some err => return (zero, some err)
    | none =>
      match ← call with
      | (result, none) => return (result, none)
      | (result, some err) =>
        if err.is .canceled || err.is .deadlineExceeded || !policy.retryable err then
          return (result, some err)
        else
          match policy.backoff with
          | none => retryFrom policy zero call remaining
          | some _ =>
            match ← ctxErr with
            | some err => return (zero, some err)
            | none => retryFrom policy zero call remaining

/-- `retryCall`. -/
def retryCall (config : Config) (zero : α) (call : Method σ (α × Option Err)) :
    Method σ (α × Option Err) :=
  match config.retry with
  | none => call
  | some policy => retryFrom policy zero call (policy.attempts - 1)

/-- `unsupported`. -/
def unsupported (capability : Capability) (operation : Operation) : Err :=
  GoFilesystem.unsupported "decorator/read-only" capability operation

def objectPathIsRoot : Err := .wrap "%w: object path is root" [] (.sentinel .invalidPath)

/-- `internal`. -/
def internal (config : Config) (path : Path) : Method σ Path :=
  if config.prefixPath.isRoot then return path
  else if path.isRoot then return config.prefixPath
  else mustParsePath (config.prefixPath.value ++ slash :: path.value)

/-- `externalPath`. -/
def externalPath (prefixPath path : Path) : Except Err Path :=
  if prefixPath.isRoot then .ok path
  else if path = prefixPath then .ok .root
  else
    match cutPrefix (prefixPath.value ++ [slash]) path.value with
    | none =>
      .error (.wrap "%w: backend listing escaped decorator prefix" [] (.sentinel .invalidPath))
    | some relative =>
      match parsePath relative with
      | .error e => .error e.err
      | .ok path => .ok path

/-- The entries that the wrapping iterator yields, and the error it ends with:
it stops at the first path that has no place beneath the prefix. -/
def externalEntries (prefixPath : Path) (inner : Option Err) : List Entry → Listing
  | [] => { err := inner }
  | entry :: entries =>
    match externalPath prefixPath entry.path with
    | .error err => { err := some err }
    | .ok path =>
      let rest := externalEntries prefixPath inner entries
      { rest with entries := { entry with path } :: rest.entries }

/-- `NewCapabilitySet`: duplicates keep their first place. -/
def newCapabilitySet (capabilities : List Capability) : List Capability :=
  capabilities.foldl (fun values c ↦ if c ∈ values then values else values ++ [c]) []

/-- The capabilities that `ReadOnly` removes. -/
def mutating : Capability → Bool
  | .write | .streamingWrite | .delete | .copy | .move | .metadata | .visibility
  | .multipart => true
  | _ => false

/-- `Capabilities`. -/
def capabilities (config : Config) (b : Backend σ) : List Capability :=
  let kept := if config.readOnly then b.capabilities.filter fun c ↦ !mutating c else b.capabilities
  newCapabilitySet (if config.checksums then kept ++ [.checksum] else kept)

/-- The digest that `Checksum` computes from a stream, or `none` for an
algorithm it does not know. -/
def digest (hashes : Hashes) : ChecksumAlgorithm → Option (Str → Str)
  | .md5 => some hashes.md5
  | .sha256 => some hashes.sha256
  | .crc32c => some fun content ↦ bigEndian (hashes.crc32c content)
  | .other _ => none

/-- One attempt of `Checksum` with `WithChecksums`. -/
def streamChecksum (hashes : Hashes) (config : Config) (b : Backend σ) (path : Path)
    (algorithm : ChecksumAlgorithm) : Method σ (Checksum × Option Err) := do
  match digest hashes algorithm with
  | none =>
    return ({}, some (GoFilesystem.unsupported "decorator/checksum" .checksum .checksum))
  | some sum =>
    match ← b.openPath (← internal config path) with
    | (_, some err) => return ({}, some err)
    | (stream, none) =>
      match stream.source.copy with
      | .error err => return ({}, some err)
      | .ok content =>
        match stream.closeErr with
        | some err => return ({}, some err)
        | none => return ({ algorithm, value := hexEncode (sum content) }, none)

/-- A method that read-only adapters reject before anything else. -/
def guarded {α : Type} (config : Config) (capability : Capability) (operation : Operation)
    (reject : Err → α) (call : Method σ α) : Method σ α :=
  if config.readOnly then return reject (unsupported capability operation) else call

/-- `New`: the decorated backend. -/
def decorate (hashes : Hashes) (config : Config) (b : Backend σ) : Backend σ where
  capabilities := capabilities config b
  openPath path :=
    observeCall config .read path .root Prod.snd <| retryCall config {} do
      b.openPath (← internal config path)
  openRange path byteRange :=
    observeCall config .rangeRead path .root Prod.snd <| retryCall config {} do
      b.openRange (← internal config path) byteRange
  write path source options :=
    observeCall config .write path .root Prod.snd <|
      guarded config .write .write (fun err ↦ ({}, some err)) do
        if path.isRoot then return ({}, some objectPathIsRoot)
        else
          let (metadata, err) ← b.write (← internal config path) source options
          return ({ metadata with path }, err)
  openWriter path options :=
    observeCall config .write path .root errorOf <|
      guarded config .streamingWrite .write .error do
        if path.isRoot then return .error objectPathIsRoot
        else b.openWriter (← internal config path) options
  delete path :=
    observeCall config .delete path .root id <| guarded config .delete .delete some do
      b.delete (← internal config path)
  list path options :=
    observeCall config .list path .root Prod.snd do
      match ← retryCall config {} do b.list (← internal config path) options with
      | (_, some err) => return ({}, some err)
      | (inner, none) => return (externalEntries config.prefixPath inner.err inner.entries, none)
  stat path :=
    observeCall config .stat path .root Prod.snd do
      let (metadata, err) ← retryCall config {} do b.stat (← internal config path)
      return ({ metadata with path }, err)
  copy source destination options :=
    observeCall config .copy source destination id <| guarded config .copy .copy some do
      b.copy (← internal config source) (← internal config destination) options
  move source destination options :=
    observeCall config .move source destination id <| guarded config .move .move some do
      b.move (← internal config source) (← internal config destination) options
  setMetadata path metadata :=
    observeCall config .setMetadata path .root id <|
      guarded config .metadata .setMetadata some do
        b.setMetadata (← internal config path) metadata
  checksum path algorithm :=
    observeCall config .checksum path .root Prod.snd <| retryCall config {} do
      if config.checksums then streamChecksum hashes config b path algorithm
      else b.checksum (← internal config path) algorithm
  visibility path :=
    observeCall config .visibility path .root Prod.snd <|
      guarded config .visibility .visibility (fun err ↦ (.unset, some err)) <|
        retryCall config .unset do b.visibility (← internal config path)
  setVisibility path visibility :=
    observeCall config .setVisibility path .root id <|
      guarded config .visibility .setVisibility some do
        b.setVisibility (← internal config path) visibility
  temporaryURL := some fun path lifetime options ↦
    observeCall config .temporaryURL path .root Prod.snd <|
      match b.temporaryURL with
      | none =>
        return ([], some (GoFilesystem.unsupported "decorator" .temporaryURL .temporaryURL))
      | some sign => retryCall config [] do sign (← internal config path) lifetime options

end GoFilesystem.Decorator
