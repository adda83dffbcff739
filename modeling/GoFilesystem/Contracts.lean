import GoFilesystem.Errors
import GoFilesystem.Go.Call
import GoFilesystem.Go.Map

/-!
# The adapter surface

The shared types of the root package (`contracts.go`) and the interface that
decorators wrap.

A method of an adapter is a `Call` over a frame: the adapter's own state, how
often the call has looked at its context so far, and the events handed to
observers.  Everything the source leaves to its surroundings is in `Env`: what
each look at the context answers, the reading of the clock, and the order in
which ranging over a map visits its keys.  A method returns a Go pair: a value
together with an error that may be nil.
-/

namespace GoFilesystem

open Go

/-- A point in time; the zero time is `0`. -/
abbrev Time := Int

/-- `Visibility`, an open string type: besides the two values it names there is
the empty string and any other text. -/
inductive Visibility where
  | unset
  | visibilityPrivate
  | visibilityPublic
  | other (text : Str)
deriving DecidableEq

abbrev UserMetadata := Option (GoMap Str Str)

/-- `WriteOptions`. -/
structure WriteOptions where
  contentType : Str := []
  metadata : UserMetadata := none
  visibility : Visibility := .unset
  ifNoneMatch : Bool := false

/-- `ListOptions`. -/
structure ListOptions where
  recursive : Bool := false
  limit : Int := 0

/-- `CopyOptions` and `MoveOptions`, two structures with the same one field. -/
structure OverwriteOptions where
  overwrite : Bool := false

/-- `ByteRange`. -/
structure ByteRange where
  offset : Int
  length : Int

/-- `TemporaryURLOptions`. -/
structure TemporaryURLOptions where
  downloadName : Str := []
  contentType : Str := []

/-- `EntryKind`; the empty string is the kind of a zero value. -/
inductive EntryKind where
  | none
  | file
  | directory
deriving DecidableEq

/-- `Metadata`. -/
structure Metadata where
  path : Path := .root
  kind : EntryKind := .none
  size : Nat := 0
  modified : Time := 0
  etag : Str := []
  contentType : Str := []
  userMetadata : UserMetadata := none
  visibility : Visibility := .unset
deriving DecidableEq

instance : Inhabited Metadata := ⟨{}⟩

/-- `Entry`. -/
structure Entry where
  path : Path
  kind : EntryKind
  size : Nat := 0
  modified : Time := 0
deriving DecidableEq

/-- What an `EntryIterator` yields until `Next` returns false, and what `Err`
reports then. -/
structure Listing where
  entries : List Entry := []
  err : Option Err := none
deriving DecidableEq, Inhabited

/-- `ChecksumAlgorithm`, an open string type like `Visibility`. -/
inductive ChecksumAlgorithm where
  | md5
  | sha256
  | crc32c
  | other (text : Str)
deriving DecidableEq

/-- `Checksum`; the zero value names no algorithm. -/
structure Checksum where
  algorithm : ChecksumAlgorithm := .other []
  value : Str := []
deriving DecidableEq, Inhabited

structure Hashes where
  md5 : Str → Str
  sha256 : Str → Str
  crc32c : Str → UInt32

def bigEndian (n : UInt32) : Str :=
  [(n >>> 24).toUInt8, (n >>> 16).toUInt8, (n >>> 8).toUInt8, n.toUInt8]

/-- `fmt.Sprintf("%08x", n)`. -/
def sprintf08x (n : UInt32) : Str :=
  (List.range 8).map fun i ↦ hexDigit (n.toNat / 16 ^ (7 - i) % 16)

/-- The hexadecimal digits of a CRC are those of its bytes. -/
theorem hexEncode_bigEndian (n : UInt32) : hexEncode (bigEndian n) = sprintf08x n := by
  have hbyte : ∀ k : UInt32, k.toNat < 32 →
      (n >>> k).toUInt8.toNat = n.toNat / 2 ^ k.toNat % 256 := by
    intro k hk
    rw [UInt32.toNat_toUInt8, UInt32.toNat_shiftRight, Nat.mod_eq_of_lt hk,
      Nat.shiftRight_eq_div_pow]
  have h3 : (n >>> 24).toUInt8.toNat = n.toNat / 16777216 % 256 := hbyte 24 (by decide)
  have h2 : (n >>> 16).toUInt8.toNat = n.toNat / 65536 % 256 := hbyte 16 (by decide)
  have h1 : (n >>> 8).toUInt8.toNat = n.toNat / 256 % 256 := hbyte 8 (by decide)
  have h0 : n.toUInt8.toNat = n.toNat % 256 := UInt32.toNat_toUInt8 n
  have hdigit : ∀ {a b : Nat}, a = b → hexDigit a = hexDigit b := fun h ↦ congrArg hexDigit h
  have hdigits : sprintf08x n = [hexDigit (n.toNat / 268435456 % 16),
      hexDigit (n.toNat / 16777216 % 16), hexDigit (n.toNat / 1048576 % 16),
      hexDigit (n.toNat / 65536 % 16), hexDigit (n.toNat / 4096 % 16),
      hexDigit (n.toNat / 256 % 16), hexDigit (n.toNat / 16 % 16),
      hexDigit (n.toNat / 1 % 16)] := rfl
  rw [hdigits]
  simp only [hexEncode, bigEndian, List.flatMap_cons, List.flatMap_nil, h3, h2, h1, h0,
    List.cons_append, List.nil_append, List.cons.injEq, and_true]
  refine ⟨?_, ?_, ?_, ?_, ?_, ?_, ?_, ?_⟩ <;> exact hdigit (by omega)

/-- What reading an `io.Reader` to its end returns: the chunks of the reads that
succeed, then the bytes and the error of the last one.  The stream ended
cleanly when that error is `io.EOF` itself. -/
structure Source where
  reads : List Str := []
  last : Str := []
  err : Err := .sentinel .eof

def Source.content (source : Source) : Str := source.reads.flatten ++ source.last

/-- Whether the reader reached the end of its data. -/
def Source.Complete (source : Source) : Prop := source.err = .sentinel .eof

instance (source : Source) : Decidable source.Complete :=
  inferInstanceAs (Decidable (source.err = _))

/-- `io.Copy` into a writer that never fails. -/
def Source.copy (source : Source) : Except Err Str :=
  if source.Complete then .ok source.content else .error source.err

/-- A stream returned by `Open`: what it reads as and what closing it returns. -/
structure Stream where
  source : Source := {}
  closeErr : Option Err := none

/-- One observed call (`decorator.Event`), less its clock readings. -/
structure Event where
  operation : Operation
  path : Path
  destination : Path
  error : Option Err
deriving DecidableEq

/-! ## Calls on an adapter -/

/-- What a call finds around it. -/
structure Env where
  /-- The answer of the `n`-th look at the context. -/
  ctx : Nat → Option CtxErr
  /-- The reading of the clock. -/
  now : Time
  /-- The order of ranging over stored objects. -/
  objectsOrder : IterOrder Str
  /-- The order of ranging over the entries of a listing under construction. -/
  entriesOrder : IterOrder Str

/-- The state of an adapter during a call. -/
structure Frame (σ : Type) where
  store : σ
  polls : Nat := 0
  events : List Event := []

/-- A call on an adapter whose state is `σ`. -/
abbrev Method (σ α : Type) := Call Env (Frame σ) α

namespace Method

variable {σ α : Type}

/-- `ctx.Err()`. -/
def ctxErr : Method σ (Option Err) := fun env frame ↦
  some ((env.ctx frame.polls).map CtxErr.err, { frame with polls := frame.polls + 1 })

def clock : Method σ Time := fun env frame ↦ some (env.now, frame)

def load : Method σ σ := fun _ frame ↦ some (frame.store, frame)

def modify (f : σ → α × σ) : Method σ α := fun _ frame ↦
  some ((f frame.store).1, { frame with store := (f frame.store).2 })

def emit (event : Event) : Method σ Unit := fun _ frame ↦
  some ((), { frame with events := frame.events ++ [event] })

@[simp] theorem ctxErr_apply (env : Env) (frame : Frame σ) : (ctxErr : Method σ _) env frame =
    some ((env.ctx frame.polls).map CtxErr.err, { frame with polls := frame.polls + 1 }) := rfl

@[simp] theorem clock_apply (env : Env) (frame : Frame σ) :
    (clock : Method σ _) env frame = some (env.now, frame) := rfl

@[simp] theorem load_apply (env : Env) (frame : Frame σ) :
    (load : Method σ _) env frame = some (frame.store, frame) := rfl

@[simp] theorem modify_apply (f : σ → α × σ) (env : Env) (frame : Frame σ) : modify f env frame =
    some ((f frame.store).1, { frame with store := (f frame.store).2 }) := rfl

@[simp] theorem emit_apply (event : Event) (env : Env) (frame : Frame σ) : emit event env frame =
    some ((), { frame with events := frame.events ++ [event] }) := rfl

/-- The read loop of `io.Copy` over a `contextReader`: the context is looked at
before each read. -/
def copyReads (source : Source) : List Str → Str → Method σ (Except Err Str)
  | [], content => do
    match ← ctxErr with
    | some err => return .error err
    | none =>
      return if source.Complete then .ok (content ++ source.last) else .error source.err
  | chunk :: chunks, content => do
    match ← ctxErr with
    | some err => return .error err
    | none => copyReads source chunks (content ++ chunk)

/-- `io.Copy(&content, contextReader{ctx, source})`. -/
def copySource (source : Source) : Method σ (Except Err Str) := copyReads source source.reads []

end Method

/-- `MustParsePath`. -/
def mustParsePath {σ : Type} (value : Str) : Method σ Path :=
  match parsePath value with
  | .ok path => pure path
  | .error _ => Call.panic

theorem NormalForm.mustParsePath_eq {σ : Type} {value : Str} (h : NormalForm value) :
    (mustParsePath value : Method σ Path) = pure ⟨value, .inr h⟩ := by
  rw [mustParsePath, h.parsePath_eq]

/-! ## Disciplines of the adapter's state -/

namespace Method

variable {σ α β : Type} {D : Call.Discipline σ} {V : α → Prop}

/-- The call keeps to a discipline of the adapter's own state. -/
abbrev Obeys (D : Call.Discipline σ) (x : Method σ α) (V : α → Prop) : Prop :=
  Call.Obeys (D.comap Frame.store) x V

theorem obeys_ctxErr : Obeys D ctxErr fun _ ↦ True := fun _ _ h ↦ ⟨.refl h, trivial⟩

theorem obeys_clock : Obeys D clock fun _ ↦ True := fun _ _ h ↦ ⟨.refl h, trivial⟩

theorem obeys_ask : Obeys D Call.ask fun _ ↦ True := fun _ _ h ↦ ⟨.refl h, trivial⟩

theorem obeys_emit (event : Event) : Obeys D (emit event) fun _ ↦ True :=
  fun _ frame h ↦ ⟨⟨h, D.refl frame.store⟩, trivial⟩

theorem obeys_load : Obeys D load D.pre := fun _ _ h ↦ ⟨.refl h, h⟩

theorem obeys_modify {f : σ → α × σ} (h : ∀ s, D.pre s → D.Allows s (f s).2) :
    Obeys D (modify f) fun _ ↦ True :=
  fun _ frame hs ↦ ⟨h frame.store hs, trivial⟩

theorem obeys_mustParsePath {value : Str} (h : D.mayPanic ∨ NormalForm value) :
    Obeys D (mustParsePath value) fun _ ↦ True := by
  rcases h with h | h
  · unfold mustParsePath
    split
    · exact .pure trivial
    · exact fun _ _ _ ↦ h
  · rw [h.mustParsePath_eq]
    exact .pure trivial

theorem obeys_copyReads (source : Source) (chunks : List Str) (content : Str) :
    Obeys D (copyReads source chunks content) fun _ ↦ True := by
  induction chunks generalizing content with
  | nil =>
      refine obeys_ctxErr.bind fun err _ ↦ ?_
      cases err with
      | some err => exact .pure trivial
      | none => exact .pure trivial
  | cons chunk chunks ih =>
      refine obeys_ctxErr.bind fun err _ ↦ ?_
      cases err with
      | some err => exact .pure trivial
      | none => exact ih (content ++ chunk)

theorem obeys_copySource (source : Source) : Obeys D (copySource source) fun _ ↦ True :=
  obeys_copyReads source source.reads []

/-- Two uploads of one source see the same as long as they see the same context. -/
theorem related_copyReads {τ : Type} {X : Env → Env → Prop} {R : Frame σ → Frame τ → Prop}
    (hctx : Call.Related X R Eq (ctxErr : Method σ _) (ctxErr : Method τ _)) (source : Source)
    (chunks : List Str) (content : Str) :
    Call.Related X R Eq (copyReads source chunks content : Method σ _)
      (copyReads source chunks content : Method τ _) := by
  induction chunks generalizing content with
  | nil =>
      refine hctx.bind ?_
      rintro err _ rfl
      cases err with
      | some err => exact .pure rfl
      | none => exact .pure rfl
  | cons chunk chunks ih =>
      refine hctx.bind ?_
      rintro err _ rfl
      cases err with
      | some err => exact .pure rfl
      | none => exact ih (content ++ chunk)

end Method

/-- What `OpenWriter` returns: the upload that `Close` runs on everything
written before. -/
structure Writer (σ : Type) where
  consume : Source → Method σ (Option Err)

/-- The interface that decorators wrap (`decorator.Backend`), with the optional
`TemporaryURLer` of the backends that have it. -/
structure Backend (σ : Type) where
  capabilities : List Capability
  openPath : Path → Method σ (Stream × Option Err)
  openRange : Path → ByteRange → Method σ (Stream × Option Err)
  write : Path → Source → WriteOptions → Method σ (Metadata × Option Err)
  openWriter : Path → WriteOptions → Method σ (Except Err (Writer σ))
  delete : Path → Method σ (Option Err)
  list : Path → ListOptions → Method σ (Listing × Option Err)
  stat : Path → Method σ (Metadata × Option Err)
  copy : Path → Path → OverwriteOptions → Method σ (Option Err)
  move : Path → Path → OverwriteOptions → Method σ (Option Err)
  setMetadata : Path → UserMetadata → Method σ (Option Err)
  checksum : Path → ChecksumAlgorithm → Method σ (Checksum × Option Err)
  visibility : Path → Method σ (Visibility × Option Err)
  setVisibility : Path → Visibility → Method σ (Option Err)
  temporaryURL : Option (Path → Int → TemporaryURLOptions → Method σ (Str × Option Err))

end GoFilesystem
