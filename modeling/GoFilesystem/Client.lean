import GoFilesystem.Contracts

/-!
# Clients of an adapter

A client performs operations one after another on an adapter.  Besides the
state of the adapter it holds the streaming writers it has opened; a writer
publishes when it is closed, and closing it again repeats the first result.
The chunks written to a writer do not reach the adapter's state before that, so
they are an argument of the operation that closes it.
-/

namespace GoFilesystem

open Go

/-- Every operation an adapter offers, with its arguments. -/
inductive Op where
  | openPath (path : Path)
  | openRange (path : Path) (byteRange : ByteRange)
  | write (path : Path) (source : Source) (options : WriteOptions)
  | openWriter (path : Path) (options : WriteOptions)
  | closeWriter (handle : Nat) (chunks : List Str)
  | delete (path : Path)
  | list (directory : Path) (options : ListOptions)
  | stat (path : Path)
  | copy (source destination : Path) (options : OverwriteOptions)
  | move (source destination : Path) (options : OverwriteOptions)
  | setMetadata (path : Path) (metadata : UserMetadata)
  | checksum (path : Path) (algorithm : ChecksumAlgorithm)
  | visibility (path : Path)
  | setVisibility (path : Path) (visibility : Visibility)
  | temporaryURL (path : Path) (lifetime : Int) (options : TemporaryURLOptions)

inductive Result where
  | done (err : Option Err)
  | stream (stream : Stream) (err : Option Err)
  | metadata (metadata : Metadata) (err : Option Err)
  | listing (listing : Listing) (err : Option Err)
  | checksum (checksum : Checksum) (err : Option Err)
  | visibility (visibility : Visibility) (err : Option Err)
  | url (url : Str) (err : Option Err)
  | handle (handle : Nat)
  | noHandle

def Result.error : Result → Option Err
  | .done err | .stream _ err | .metadata _ err | .listing _ err | .checksum _ err
  | .visibility _ err | .url _ err => err
  | .handle _ | .noHandle => none

/-- A writer a client holds, with the result of its first `Close`. -/
structure OpenWriter (σ : Type) where
  writer : Writer σ
  result : Option (Option Err) := none

/-- A client: the state of its adapter and its writers. -/
structure Client (σ : Type) where
  store : σ
  writers : List (OpenWriter σ) := []

/-! Two lists of writers side by side. -/

section SideBySide

variable {α β : Type} {S : α → β → Prop} {l : List α} {l' : List β}

theorem forall₂_getElem? (h : List.Forall₂ S l l') (i : Nat) : Option.Rel S l[i]? l'[i]? := by
  induction h generalizing i with
  | nil => exact .none
  | cons hab _ ih =>
      cases i with
      | zero => exact .some hab
      | succ i => exact ih i

theorem forall₂_set (h : List.Forall₂ S l l') (i : Nat) {a : α} {b : β} (hab : S a b) :
    List.Forall₂ S (l.set i a) (l'.set i b) := by
  induction h generalizing i with
  | nil => exact .nil
  | cons hab' hrest ih =>
      cases i with
      | zero => exact .cons hab hrest
      | succ i => exact .cons hab' (ih i)

end SideBySide

namespace Client

variable {σ : Type}

/-- `Close` on a writer: the upload runs once, over the chunks written. -/
def close (writers : List (OpenWriter σ)) (handle : Nat) (chunks : List Str) :
    Method σ (Result × List (OpenWriter σ)) :=
  match writers[handle]? with
  | none => return (.noHandle, writers)
  | some opened =>
    match opened.result with
    | some err => return (.done err, writers)
    | none => do
      let err ← opened.writer.consume { reads := chunks }
      return (.done err, writers.set handle { opened with result := some err })

def call (b : Backend σ) (writers : List (OpenWriter σ)) :
    Op → Method σ (Result × List (OpenWriter σ))
  | .openPath path => do
    let (stream, err) ← b.openPath path
    return (.stream stream err, writers)
  | .openRange path byteRange => do
    let (stream, err) ← b.openRange path byteRange
    return (.stream stream err, writers)
  | .write path source options => do
    let (metadata, err) ← b.write path source options
    return (.metadata metadata err, writers)
  | .openWriter path options => do
    match ← b.openWriter path options with
    | .error err => return (.done (some err), writers)
    | .ok writer => return (.handle writers.length, writers ++ [{ writer }])
  | .closeWriter handle chunks => close writers handle chunks
  | .delete path => do
    return (.done (← b.delete path), writers)
  | .list directory options => do
    let (listing, err) ← b.list directory options
    return (.listing listing err, writers)
  | .stat path => do
    let (metadata, err) ← b.stat path
    return (.metadata metadata err, writers)
  | .copy source destination options => do
    return (.done (← b.copy source destination options), writers)
  | .move source destination options => do
    return (.done (← b.move source destination options), writers)
  | .setMetadata path metadata => do
    return (.done (← b.setMetadata path metadata), writers)
  | .checksum path algorithm => do
    let (checksum, err) ← b.checksum path algorithm
    return (.checksum checksum err, writers)
  | .visibility path => do
    let (visibility, err) ← b.visibility path
    return (.visibility visibility err, writers)
  | .setVisibility path visibility => do
    return (.done (← b.setVisibility path visibility), writers)
  | .temporaryURL path lifetime options =>
    match b.temporaryURL with
    | none => return (.noHandle, writers)
    | some sign => do
      let (url, err) ← sign path lifetime options
      return (.url url err, writers)

/-- One operation of a client; `none` is a panic. -/
def perform (b : Backend σ) (op : Op) (env : Env) (client : Client σ) :
    Option (Result × List Event × Client σ) :=
  (call b client.writers op env { store := client.store }).map fun ((result, writers), frame) ↦
    (result, frame.events, { store := frame.store, writers })

theorem perform_of_call {b : Backend σ} {op : Op} {env : Env} {c : Client σ}
    {r : Result × List (OpenWriter σ)} {frame : Frame σ}
    (h : call b c.writers op env { store := c.store } = some (r, frame)) :
    perform b op env c = some (r.1, frame.events, ⟨frame.store, r.2⟩) := by
  rw [perform, h]
  rfl

def run (b : Backend σ) : List (Op × Env) → Client σ → Option (Client σ)
  | [], client => some client
  | (op, env) :: rest, client => (perform b op env client).bind fun r ↦ run b rest r.2.2

theorem run_append (b : Backend σ) (steps more : List (Op × Env)) (client : Client σ) :
    run b (steps ++ more) client = (run b steps client).bind (run b more) := by
  induction steps generalizing client with
  | nil => rfl
  | cons step steps ih =>
      obtain ⟨op, env⟩ := step
      simp only [List.cons_append, run, ih, Option.bind_assoc]

/-- A run of one more operation. -/
theorem run_take_succ (b : Backend σ) {steps : List (Op × Env)} {n : Nat} {op : Op} {env : Env}
    (h : steps[n]? = some (op, env)) (client : Client σ) :
    run b (steps.take (n + 1)) client =
      (run b (steps.take n) client).bind fun c ↦ (perform b op env c).map fun r ↦ r.2.2 := by
  rw [List.take_add_one, h, run_append]
  congr 1
  funext c
  simp only [Option.toList_some, run]
  cases perform b op env c <;> rfl

end Client

end GoFilesystem
