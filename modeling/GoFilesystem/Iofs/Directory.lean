import GoFilesystem.Go.Slice
import GoFilesystem.Iofs

/-!
# Opened files of the bridge

`Open` of `iofs.go` and the two kinds of file it returns.  An opened directory
holds its entries and a cursor into them; `ReadDir` on it returns the entries
page by page.  The count of a page is a Go `int`, and so is the sum that the
code computes from it, which wraps around.
-/

namespace GoFilesystem.Iofs

open Go

variable {σ : Type}

/-- `ioFSDirectory`. -/
structure Directory where
  name : Str
  info : Info
  entries : List Info
  offset : Nat := 0
  closed : Bool := false

/-- `ioFSFile` and `ioFSDirectory`. -/
inductive File where
  | file (stream : Stream) (info : Info)
  | directory (d : Directory)

/-- `Open`. -/
def openFile (b : Backend σ) (name : Str) : Bridge σ (Except Err File) :=
  match ioFSPath name with
  | .error err => return .error (pathError (.lit "open") name err)
  | .ok logicalPath => do
    match ← metadata b logicalPath with
    | (_, some err) => return .error (pathError (.lit "open") name err)
    | (metadata, none) =>
      if metadata.kind = .directory then
        match ← directoryEntries b logicalPath with
        | .error err => return .error (pathError (.lit "open") name err)
        | .ok entries =>
          return .ok (.directory { name, info := { metadata, name := ← ioFSBase name }, entries })
      else
        match ← provider (b.openPath logicalPath) with
        | (_, some err) => return .error (pathError (.lit "open") name err)
        | (stream, none) => return .ok (.file stream { metadata, name := ← ioFSBase name })

namespace Directory

/-- `Read` of a directory. -/
def read (d : Directory) : Err := pathError (.lit "read") d.name (.sentinel .isDirectory)

/-- `Close` of a directory. -/
def close (d : Directory) : Directory := { d with closed := true }

/-- `Stat` of an opened directory. -/
def stat (d : Directory) : Except Err Info :=
  if d.closed then .error (pathError (.lit "stat") d.name (.sentinel .fsClosed)) else .ok d.info

/-- What `ReadDir` returns: entries and an error that may be nil. -/
abbrev Page := List Info × Option Err

/-- `ReadDir` of an opened directory; `none` is a panic. -/
def readDir (d : Directory) (count : Int64) : Option (Page × Directory) :=
  if d.closed then some (([], some (pathError (.lit "readdir") d.name (.sentinel .fsClosed))), d)
  else if count ≤ 0 then
    (slice d.entries d.offset d.entries.length).map fun result ↦
      ((result, none), { d with offset := d.entries.length })
  else if d.entries.length ≤ d.offset then some (([], some (.sentinel .eof)), d)
  else
    let stop := min (Int64.ofNat d.offset + count).toInt d.entries.length
    (slice d.entries d.offset stop).map fun result ↦
      ((result, none), { d with offset := stop.toNat })

end Directory

end GoFilesystem.Iofs
