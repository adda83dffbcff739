import GoFilesystem.Contracts
import Mathlib.Data.List.Sort

/-!
# The in-memory adapter

`memory/memory.go`, method by method.  The state is the `objects` map; the
mutex is not represented, since a method that runs alone holds it exactly
around its accesses to the map.  `OpenWriter` is here with the publication it
performs on `Close`; its pipe and its goroutines are in
`GoFilesystem.Memory.Streaming`.

Listing is the only method that can panic: it builds the path of every entry
with `MustParsePath`.
-/

namespace GoFilesystem.Memory

open Go Method

structure Object where
  content : Str
  metadata : UserMetadata
  contentType : Str
  visibility : Visibility
  modified : Time
deriving DecidableEq

/-- The `objects` map, keyed by the string of a path. -/
abbrev Objects := GoMap Str Object

/-- The adapter that `New` returns. -/
def new : Objects := ∅

def capabilities : List Capability :=
  [.read, .write, .streamingWrite, .delete, .list, .stat, .copy, .move, .rangeRead, .metadata,
    .checksum, .visibility]

/-- `notFound`. -/
def notFound (path : Path) : Err := .wrap "%w: %s" [path.value] (.sentinel .notFound)

def objectPathIsRoot : Err := .wrap "%w: object path is root" [] (.sentinel .invalidPath)

/-- `normalizeVisibility`. -/
def normalizeVisibility : Visibility → Except Err Visibility
  | .unset | .visibilityPrivate => .ok .visibilityPrivate
  | .visibilityPublic => .ok .visibilityPublic
  | .other text => .error (.new "filesystem: invalid visibility %q" [text])

/-- `cloneMap`: a copy, which as a value is the map itself. -/
def cloneMap (source : UserMetadata) : UserMetadata := source

/-- `metadataFor`. -/
def metadataFor (path : Path) (stored : Object) : Metadata where
  path := path
  kind := .file
  size := stored.content.length
  modified := stored.modified
  contentType := stored.contentType
  userMetadata := cloneMap stored.metadata
  visibility := stored.visibility

def bytesReader (content : Str) : Stream where
  source := { last := content }

/-! ## Reading

`Open`, `OpenRange`, `Stat` and `Checksum` share a frame: the context is looked
at, the object is looked up under the read lock, and what they return is a
function of the object. -/

def reading {α : Type} (path : Path) (zero : α) (body : Object → α × Option Err) :
    Method Objects (α × Option Err) := do
  match ← ctxErr with
  | some err => return (zero, some err)
  | none =>
    match (← load).lookup path.value with
    | none => return (zero, some (notFound path))
    | some stored => return body stored

/-- What a read returns. -/
theorem reading_apply {α : Type} (path : Path) (zero : α) (body : Object → α × Option Err)
    (env : Env) (frame : Frame Objects) :
    reading path zero body env frame = some (match env.ctx frame.polls with
      | some err => (zero, some err.err)
      | none => match frame.store.lookup path.value with
        | none => (zero, some (notFound path))
        | some stored => body stored, { frame with polls := frame.polls + 1 }) := by
  rw [reading, Call.bind_apply, ctxErr_apply]
  cases env.ctx frame.polls with
  | some err => rfl
  | none =>
      dsimp only [Option.map_none, Option.bind_some]
      rw [Call.bind_apply, load_apply, Option.bind_some]
      dsimp only
      cases frame.store.lookup path.value <;> rfl

/-- `Open`. -/
def openPath (path : Path) : Method Objects (Stream × Option Err) :=
  reading path {} fun stored ↦ (bytesReader stored.content, none)

/-- `OpenRange` of a stored object, once the range is known to be well formed. -/
def rangeOf (byteRange : ByteRange) (stored : Object) : Stream × Option Err :=
  let content := stored.content
  if byteRange.offset ≥ content.length then
    ({}, some (.wrap "%w: offset=%d size=%d"
      [.lit (toString byteRange.offset), .lit (toString content.length)] (.sentinel .invalidRange)))
  else
    let available := (content.length : Int) - byteRange.offset
    let stop := byteRange.offset + min byteRange.length available
    (bytesReader ((content.take stop.toNat).drop byteRange.offset.toNat), none)

/-- `OpenRange`. -/
def openRange (path : Path) (byteRange : ByteRange) : Method Objects (Stream × Option Err) :=
  if byteRange.offset < 0 ∨ byteRange.length ≤ 0 then
    return ({}, some (.wrap "%w: offset=%d length=%d"
      [.lit (toString byteRange.offset), .lit (toString byteRange.length)]
      (.sentinel .invalidRange)))
  else
    reading path {} (rangeOf byteRange)

/-- `Stat`. -/
def stat (path : Path) : Method Objects (Metadata × Option Err) :=
  reading path {} fun stored ↦ (metadataFor path stored, none)

/-- `Visibility`. -/
def visibility (path : Path) : Method Objects (Visibility × Option Err) := do
  let (metadata, err) ← stat path
  return (metadata.visibility, err)

/-- The digest that `Checksum` computes of a stored object. -/
def digestOf (hashes : Hashes) (algorithm : ChecksumAlgorithm) (stored : Object) :
    Checksum × Option Err :=
  match algorithm with
  | .md5 => (⟨algorithm, hexEncode (hashes.md5 stored.content)⟩, none)
  | .sha256 => (⟨algorithm, hexEncode (hashes.sha256 stored.content)⟩, none)
  | .crc32c => (⟨algorithm, sprintf08x (hashes.crc32c stored.content)⟩, none)
  | .other _ => ({}, some (unsupported "memory" .checksum .checksum))

/-- `Checksum`. -/
def checksum (hashes : Hashes) (path : Path) (algorithm : ChecksumAlgorithm) :
    Method Objects (Checksum × Option Err) :=
  reading path {} (digestOf hashes algorithm)

/-! ## Writing -/

/-- The object that `Write` stores. -/
def newObject (options : WriteOptions) (visibility : Visibility) (content : Str) (now : Time) :
    Object where
  content := content
  metadata := cloneMap options.metadata
  contentType := options.contentType
  visibility := visibility
  modified := now

/-- The locked part of `Write`: the precondition and the publication. -/
def publish (path : Path) (ifNoneMatch : Bool) (stored : Object) (objects : Objects) :
    Option Err × Objects :=
  if ifNoneMatch && (objects.lookup path.value).isSome then
    (some (.wrap "%w: %s" [path.value] (.sentinel .preconditionFailed)), objects)
  else (none, objects.insert path.value stored)

/-- `Write`. -/
def write (path : Path) (source : Source) (options : WriteOptions) :
    Method Objects (Metadata × Option Err) := do
  if path.isRoot then
    return ({}, some objectPathIsRoot)
  else
    match normalizeVisibility options.visibility with
    | .error err => return ({}, some err)
    | .ok visibility =>
      match ← copySource source with
      | .error err => return ({}, some err)
      | .ok content =>
        match ← ctxErr with
        | some err => return ({}, some err)
        | none =>
          let stored := newObject options visibility content (← clock)
          match ← modify (publish path options.ifNoneMatch stored) with
          | some err => return ({}, some err)
          | none => return (metadataFor path stored, none)

/-- `OpenWriter`. -/
def openWriter (path : Path) (options : WriteOptions) :
    Method Objects (Except Err (Writer Objects)) := do
  match ← ctxErr with
  | some err => return .error err
  | none =>
    if path.isRoot then
      return .error objectPathIsRoot
    else
      return .ok ⟨fun source ↦ do return (← write path source options).2⟩

/-! ## Changing stored objects

`Delete`, `Copy`, `Move`, `SetMetadata` and `SetVisibility` share a frame too:
the context is looked at, then one step runs under the write lock. -/

/-- A step under the write lock: it may read the clock, and it returns an error
and the new map. -/
def locked (body : Time → Objects → Option Err × Objects) : Method Objects (Option Err) := do
  match ← ctxErr with
  | some err => return some err
  | none => modify (body (← clock))

/-- What a locked step returns and leaves behind. -/
theorem locked_apply (body : Time → Objects → Option Err × Objects) (env : Env)
    (frame : Frame Objects) :
    locked body env frame = some (match env.ctx frame.polls with
      | some err => (some err.err, { frame with polls := frame.polls + 1 })
      | none => ((body env.now frame.store).1,
          { frame with store := (body env.now frame.store).2, polls := frame.polls + 1 })) := by
  rw [locked, Call.bind_apply, ctxErr_apply]
  cases env.ctx frame.polls <;> rfl

/-- The locked part of `Delete`. -/
def deleteLocked (path : Path) (objects : Objects) : Option Err × Objects :=
  match objects.lookup path.value with
  | none => (some (notFound path), objects)
  | some _ => (none, objects.erase path.value)

/-- `Delete`. -/
def delete (path : Path) : Method Objects (Option Err) := locked fun _ ↦ deleteLocked path

def alreadyExists (path : Path) : Err := .wrap "%w: %s" [path.value] (.sentinel .alreadyExists)

/-- The locked part of `Copy`. -/
def copyLocked (source destination : Path) (options : OverwriteOptions) (now : Time)
    (objects : Objects) : Option Err × Objects :=
  match objects.lookup source.value with
  | none => (some (notFound source), objects)
  | some stored =>
    if !options.overwrite && (objects.lookup destination.value).isSome then
      (some (alreadyExists destination), objects)
    else
      (none, objects.insert destination.value
        { stored with metadata := cloneMap stored.metadata, modified := now })

/-- `Copy`. -/
def copy (source destination : Path) (options : OverwriteOptions) : Method Objects (Option Err) :=
  locked (copyLocked source destination options)

/-- The locked part of `Move`. -/
def moveLocked (source destination : Path) (options : OverwriteOptions) (now : Time)
    (objects : Objects) : Option Err × Objects :=
  match objects.lookup source.value with
  | none => (some (notFound source), objects)
  | some stored =>
    if !options.overwrite && (objects.lookup destination.value).isSome then
      (some (alreadyExists destination), objects)
    else if source = destination then
      (none, objects)
    else
      (none, (objects.insert destination.value { stored with modified := now }).erase source.value)

/-- `Move`. -/
def move (source destination : Path) (options : OverwriteOptions) : Method Objects (Option Err) :=
  locked (moveLocked source destination options)

/-- The locked part of `SetMetadata` and `SetVisibility`: one object changes and
its modification time is renewed. -/
def touchLocked (path : Path) (change : Object → Object) (now : Time) (objects : Objects) :
    Option Err × Objects :=
  match objects.lookup path.value with
  | none => (some (notFound path), objects)
  | some stored => (none, objects.insert path.value { change stored with modified := now })

/-- `SetMetadata`. -/
def setMetadata (path : Path) (metadata : UserMetadata) : Method Objects (Option Err) :=
  locked (touchLocked path fun stored ↦ { stored with metadata := cloneMap metadata })

/-- `SetVisibility`, which rejects an unknown visibility before it looks at the
context. -/
def setVisibility (path : Path) (visibility : Visibility) : Method Objects (Option Err) :=
  match normalizeVisibility visibility with
  | .error err => return some err
  | .ok visibility =>
    locked (touchLocked path fun stored ↦ { stored with visibility := visibility })

/-! ## Listing -/

/-- The entries of a listing under construction, keyed by the string of their
path. -/
abbrev EntryMap := GoMap Str Entry

/-- What `List` keeps of one stored object: the key and the entry to record, if
it lies beneath the listed directory. -/
def entryFor (pre : Str) (recursive : Bool) (name : Str) (stored : Object) :
    Method Objects (Option (Str × Entry)) := do
  if pre.isPrefixOf name then
    let remainder := name.drop pre.length
    match recursive, cut slash remainder with
    | false, some (child, _) =>
      let path ← mustParsePath (pre ++ child)
      return some (pre ++ child, { path := path, kind := .directory })
    | _, _ =>
      let path ← mustParsePath name
      return some (name,
        { path := path, kind := .file, size := stored.content.length, modified := stored.modified })
  else
    return none

/-- The loop of `List` over the objects. -/
def collect (pre : Str) (recursive : Bool) :
    List (Str × Object) → EntryMap → Method Objects EntryMap
  | [], entriesByPath => return entriesByPath
  | (name, stored) :: rest, entriesByPath => do
    match ← entryFor pre recursive name stored with
    | none => collect pre recursive rest entriesByPath
    | some (key, entry) => collect pre recursive rest (entriesByPath.insert key entry)

/-- `effectiveListLimit`. -/
def effectiveListLimit (requested available : Int) : Int :=
  if requested = 0 then available else min requested available

/-- `slices.SortFunc` by the string of the path. -/
def sortEntries (entries : List Entry) : List Entry :=
  entries.insertionSort fun left right ↦ left.path.value ≤ right.path.value

/-- The string prefix of everything beneath a directory. -/
def directoryPrefix (directory : Path) : Str :=
  if directory.value ≠ [] then directory.value ++ [slash] else directory.value

/-- The listing of the collected entries, sorted and cut to the limit. -/
def snapshot (order : IterOrder Str) (requested : Int) (entriesByPath : EntryMap) : Listing :=
  let entries := sortEntries ((GoMap.range order entriesByPath).map Prod.snd)
  let limit := effectiveListLimit requested entries.length
  { entries := if limit ≠ entries.length then entries.take limit.toNat else entries }

/-- `List`. -/
def list (directory : Path) (options : ListOptions) : Method Objects (Listing × Option Err) := do
  match ← ctxErr with
  | some err => return ({}, some err)
  | none =>
    if options.limit < 0 then
      return ({}, some (.new "filesystem: list limit must not be negative" []))
    else
      let env ← Call.ask
      let objects ← load
      let entriesByPath ← collect (directoryPrefix directory) options.recursive
        (GoMap.range env.objectsOrder objects) ∅
      return (snapshot env.entriesOrder options.limit entriesByPath, none)

def backend (hashes : Hashes) : Backend Objects where
  capabilities := capabilities
  openPath := openPath
  openRange := openRange
  write := write
  openWriter := openWriter
  delete := delete
  list := list
  stat := stat
  copy := copy
  move := move
  setMetadata := setMetadata
  checksum := checksum hashes
  visibility := visibility
  setVisibility := setVisibility
  temporaryURL := none

end GoFilesystem.Memory
