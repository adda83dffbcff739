import GoFilesystem.Memory.Adapter

/-!
# Streaming writers over the in-memory adapter

`internal/streamwriter/writer.go` under `memory.Adapter.OpenWriter`, as
goroutines over shared state.  `New` connects a producer and a consumer by a
pipe.  The consumer runs `Write` of the adapter on the reading end and leaves
its result in a channel; the producer writes chunks and closes; a callback
registered with the context closes the pipe once the context is done.  Two more
threads stand for the surroundings: one that cancels the context, and one that
changes the objects map as other operations on the adapter may at any time.

`published` and `early` are history variables: the objects that this writer has
stored so far, and whether the context was done before `Close` was first called.
-/

namespace GoFilesystem.Memory.Streaming

open Go Conc

inductive Tid where
  | producer
  | consumer
  | callback
  | canceller
  | environment
deriving DecidableEq

/-- The state of a `sync.Once`. -/
inductive Once where
  | fresh
  | running
  | finished
deriving DecidableEq

/-- A channel with room for one value, of which one is ever sent. -/
inductive Channel where
  | empty
  | full (err : Option Err)
  | drained
deriving DecidableEq

structure State where
  objects : Objects
  pipe : Pipe.State UInt8 Err := {}
  ctx : Option CtxErr := none
  /-- `Writer.once`. -/
  once : Once := .fresh
  /-- `Writer.err`. -/
  err : Option Err := none
  /-- `Writer.done`. -/
  done : Channel := .empty
  doneClosed : Bool := false
  /-- Whether the callback has been deregistered. -/
  stopped : Bool := false
  /-- What the consumer returned, once it has (a history variable). -/
  outcome : Option (Option Err) := none
  /-- The objects stored by this writer (a history variable). -/
  published : List Object := []
  /-- Whether the context was done before `Close` (a history variable). -/
  early : Bool := false

inductive Cmd where
  | pipe (c : Pipe.Cmd UInt8 Err)
  | ctxErr
  | clock
  /-- The critical section of `Write`. -/
  | publish (path : Path) (ifNoneMatch : Bool) (stored : Object)
  /-- `reader.CloseWithError(err)`. -/
  | closeRead (err : Option Err)
  /-- `done <- err`. -/
  | send (err : Option Err)
  /-- `close(done)`. -/
  | closeDone
  | stopCancellation
  /-- The start of the callback. -/
  | afterFunc
  | cancel (err : CtxErr)
  /-- `once.Do`: whether this call is the first. -/
  | onceDo
  /-- The end of the function under `once.Do`, which has set `Writer.err`. -/
  | onceDone (err : Option Err)
  /-- `<-done`. -/
  | receive
  /-- Reading `Writer.err`. -/
  | loadErr
  /-- Another operation on the adapter. -/
  | outside

@[reducible] def Cmd.Resp : Cmd → Type
  | .pipe c => c.Resp
  | .ctxErr => Option CtxErr
  | .clock => Time
  | .publish _ _ _ | .receive | .loadErr => Option Err
  | .afterFunc => CtxErr
  | .onceDo => Bool
  | .outside => Objects → Objects
  | _ => Unit

@[reducible] def sig : Sig := ⟨Cmd, Cmd.Resp⟩

def apply : (c : Cmd) → c.Resp → State → Option State
  | .pipe c, r, s => (Pipe.apply c r s.pipe).map fun pipe ↦ { s with pipe }
  | .ctxErr, (r : Option CtxErr), s => if r = s.ctx then some s else none
  | .clock, _, s => some s
  | .publish path ifNoneMatch stored, (r : Option Err), s =>
    let (err, objects) := Memory.publish path ifNoneMatch stored s.objects
    if r = err then
      some { s with
        objects
        published := if err = none then s.published ++ [stored] else s.published }
    else none
  | .closeRead err, _, s =>
    some { s with pipe := s.pipe.closeRead err, outcome := s.outcome <|> some err }
  | .send err, _, s => if s.done = .empty then some { s with done := .full err } else none
  | .closeDone, _, s => some { s with doneClosed := true }
  | .stopCancellation, _, s => some { s with stopped := true }
  | .afterFunc, (r : CtxErr), s => if s.ctx = some r ∧ ¬s.stopped then some s else none
  | .cancel err, _, s =>
    if s.ctx = none then
      some { s with ctx := some err, early := s.once = .fresh }
    else some s
  | .onceDo, (r : Bool), s =>
    match s.once, r with
    | .fresh, true => some { s with once := .running }
    | .finished, false => some s
    | _, _ => none
  | .onceDone err, _, s => some { s with once := .finished, err }
  | .receive, (r : Option Err), s =>
    match s.done with
    | .full err => if r = err then some { s with done := .drained } else none
    | _ => if s.doneClosed ∧ r = none then some s else none
  | .loadErr, (r : Option Err), s => if r = s.err then some s else none
  | .outside, (f : Objects → Objects), s => some { s with objects := f s.objects }

section Inversion

variable {s s' : State}

theorem apply_pipe {c : Pipe.Cmd UInt8 Err} {r : c.Resp} (h : apply (.pipe c) r s = some s') :
    ∃ pipe, Pipe.apply c r s.pipe = some pipe ∧ s' = { s with pipe } := by
  obtain ⟨pipe, hpipe, rfl⟩ := Option.map_eq_some_iff.mp h
  exact ⟨pipe, hpipe, rfl⟩

theorem apply_publish {path : Path} {ifNoneMatch : Bool} {stored : Object} {r : Option Err}
    (h : apply (.publish path ifNoneMatch stored) r s = some s') :
    r = (Memory.publish path ifNoneMatch stored s.objects).1 ∧
      s' = { s with
        objects := (Memory.publish path ifNoneMatch stored s.objects).2
        published := if r = none then s.published ++ [stored] else s.published } := by
  obtain ⟨hr, hs⟩ := Option.ite_none_right_eq_some.mp h
  refine ⟨hr, ?_⟩
  rw [hr]
  exact (Option.some.inj hs).symm

theorem apply_cancel {err : CtxErr} {r : Unit} (h : apply (.cancel err) r s = some s') :
    s' = s ∨ (s.ctx = none ∧ s' = { s with ctx := some err, early := s.once = .fresh }) := by
  dsimp only [apply] at h
  split at h
  · exact .inr ⟨‹_›, (Option.some.inj h).symm⟩
  · exact .inl (Option.some.inj h).symm

theorem apply_onceDo {r : Bool} (h : apply .onceDo r s = some s') :
    (s.once = .fresh ∧ r = true ∧ s' = { s with once := .running }) ∨
      (s.once = .finished ∧ r = false ∧ s' = s) := by
  dsimp only [apply] at h
  split at h
  · exact .inl ⟨‹_›, rfl, (Option.some.inj h).symm⟩
  · exact .inr ⟨‹_›, rfl, (Option.some.inj h).symm⟩
  · contradiction

theorem apply_receive {r : Option Err} (h : apply .receive r s = some s') :
    (s.done = .full r ∧ s' = { s with done := .drained }) ∨
      (s.doneClosed = true ∧ (∀ err, s.done ≠ .full err) ∧ s' = s) := by
  dsimp only [apply] at h
  split at h
  · rename_i err hdone
    obtain ⟨rfl, hs⟩ := of_ite_some h
    exact .inl ⟨hdone, hs.symm⟩
  · rename_i hdone
    obtain ⟨⟨hclosed, -⟩, hs⟩ := of_ite_some h
    exact .inr ⟨hclosed, hdone, hs.symm⟩

end Inversion

/-- The response of a state that answers at once, with all the bytes on offer. -/
def answer (s : State) : (c : Cmd) → c.Resp
  | .pipe .enterRead => if s.pipe.done then some s.pipe.readCloseError else none
  | .pipe .receive =>
    match s.pipe.offer with
    | .pending bytes => .ok bytes
    | _ => .error s.pipe.readCloseError
  | .pipe .enterWrite => if s.pipe.done then some s.pipe.writeCloseError else none
  | .pipe .await =>
    match s.pipe.offer with
    | .taken count => .ok count
    | _ => .error s.pipe.writeCloseError
  | .pipe (.offer _) | .pipe (.closeRead _) | .pipe (.closeWrite _) => ()
  | .ctxErr => s.ctx
  | .clock => 0
  | .publish path ifNoneMatch stored => (Memory.publish path ifNoneMatch stored s.objects).1
  | .closeRead _ | .send _ | .closeDone | .stopCancellation | .cancel _ | .onceDone _ => ()
  | .afterFunc => s.ctx.getD .canceled
  | .onceDo => s.once = .fresh
  | .receive =>
    match s.done with
    | .full err => err
    | _ => none
  | .loadErr => s.err
  | .outside => id

def machine : Machine sig Tid State := ⟨fun _ ↦ apply⟩

abbrev perform (c : Cmd) : Prog sig c.Resp := Prog.perform (S := sig) c

/-! ## The consumer -/

/-- `io.Copy(&content, contextReader{ctx, reader})`: the context is looked at
before each read from the pipe. -/
def copyPipe : Prog sig (Except Err Str) :=
  Prog.loop (fun content ↦ do
    match ← perform .ctxErr with
    | some err => return .inr (.error err.err)
    | none =>
      match ← Pipe.read fun c ↦ perform (.pipe c) with
      | .ok data => return .inl (content ++ data)
      | .error err =>
        return .inr (if err = .sentinel .eof then .ok content else .error err)) []

/-- `Write` on the reading end, less the metadata it returns. -/
def consume (path : Path) (options : WriteOptions) : Prog sig (Option Err) := do
  if path.isRoot then
    return some objectPathIsRoot
  else
    match normalizeVisibility options.visibility with
    | .error err => return some err
    | .ok visibility =>
      match ← copyPipe with
      | .error err => return some err
      | .ok content =>
        match ← perform .ctxErr with
        | some err => return some err.err
        | none =>
          let now ← perform .clock
          perform (.publish path options.ifNoneMatch (newObject options visibility content now))

/-- The goroutine that `New` starts. -/
def consumer (path : Path) (options : WriteOptions) : Prog sig Unit := do
  let err ← consume path options
  perform (.closeRead err)
  perform (.send err)
  perform .closeDone
  perform .stopCancellation

/-! ## The producer -/

/-- `Writer.Write`. -/
def write (content : Str) : Prog sig (Nat × Option Err) := do
  match ← Pipe.write (fun c ↦ perform (.pipe c)) content with
  | (n, none) => return (n, none)
  | (n, some err) =>
    match ← perform .ctxErr with
    | none => return (n, some err)
    | some _ => return (n, (← perform .ctxErr).map CtxErr.err)

/-- `Writer.Close`. -/
def close : Prog sig (Option Err) := do
  if ← perform .onceDo then
    perform (.pipe (.closeWrite none))
    let err ← perform .receive
    perform (.onceDone err)
  perform .loadErr

def writeAll : List Str → Prog sig (List (Option Err))
  | [] => return []
  | chunk :: chunks => do
    let (_, err) ← write chunk
    return err :: (← writeAll chunks)

def closeAll : Nat → Prog sig (List (Option Err))
  | 0 => return []
  | n + 1 => do
    let err ← close
    return err :: (← closeAll n)

def producer (chunks : List Str) (closes : Nat) :
    Prog sig (List (Option Err) × List (Option Err)) := do
  let wrote ← writeAll chunks
  let closed ← closeAll closes
  return (wrote, closed)

/-! ## The others -/

/-- The function given to `context.AfterFunc`. -/
def callback : Prog sig Unit := do
  let err ← perform .afterFunc
  perform (.pipe (.closeWrite (some err.err)))

def canceller (err : CtxErr) : Prog sig Unit := perform (.cancel err)

def environment : Prog sig Empty :=
  Prog.loop (fun _ : Unit ↦ do
    let _ ← perform .outside
    return .inl ()) ()

@[reducible] def Returns : Tid → Type
  | .producer => List (Option Err) × List (Option Err)
  | .environment => Empty
  | _ => Unit

def start (objects : Objects) (path : Path) (options : WriteOptions) (chunks : List Str)
    (closes : Nat) (err : CtxErr) : Config sig State Returns where
  state := { objects }
  threads
    | .producer => producer chunks closes
    | .consumer => consumer path options
    | .callback => callback
    | .canceller => canceller err
    | .environment => environment

end GoFilesystem.Memory.Streaming
