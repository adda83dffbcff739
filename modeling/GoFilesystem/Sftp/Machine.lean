import GoFilesystem.Sftp.Adapter

/-!
# One adapter and everyone who uses it

The state that the goroutines of one adapter share, and the effect of their
commands on it.  Any number of calls run at once, each in its own goroutine, and
with every stream there is the goroutine that watches its context.  What the
remote side and the caller's sources answer is arbitrary; the connector returns a
new session or an error.
-/

namespace GoFilesystem.Sftp

open Go Conc

/-- The goroutines: a call, and the one that watches the stream of a call. -/
inductive Tid where
  | call (n : Nat)
  | watch (n : StreamId)
deriving DecidableEq

/-- A `sync.Once` whose function is not running, is running, or is over. -/
inductive Once where
  | fresh
  | running
  | finished
deriving DecidableEq

/-- A `contextReadCloser`. -/
structure Stream where
  started : Bool := false
  ctx : Ctx := 0
  file : File := {}
  /-- How many bytes may still be read, behind an `io.LimitReader`. -/
  limit : Option Nat := none
  /-- Whether `done` is closed. -/
  done : Bool := false
  once : Once := .fresh
  closeErr : Option Err := none

structure State extends Remote.State Tid where
  streams : StreamId → Stream := fun _ ↦ {}

def State.modifyStream (s : State) (n : StreamId) (f : Stream → Stream) : State :=
  { s with streams := Function.update s.streams n (f (s.streams n)) }

def apply (t : Tid) : (c : Cmd) → c.Resp → State → Option State
  | .ctxErr ctx, (r : Option CtxErr), s => if r = s.ctx ctx then some s else none
  | .ctxDone ctx, (r : Bool), s => if r = (s.ctx ctx).isSome then some s else none
  | .cancel ctx err, _, s =>
    some { s with ctx := Function.update s.ctx ctx (s.ctx ctx <|> some err) }
  | .lock, _, s => if s.mu = none then some { s with mu := some t } else none
  | .unlock, _, s => if s.mu ≠ none then some { s with mu := none } else none
  | .loadClosed, (r : Bool), s => if r = s.closed then some s else none
  | .storeClosed, _, s => some { s with closed := true }
  | .loadSession, (r : Option Session), s => if r = s.session then some s else none
  | .storeSession session, _, s => some { s with session }
  | .connect _, (r : Except Err Session), s =>
    match r with
    | .error _ => some s
    | .ok session =>
      if session = s.dialed then some { s with dialed := s.dialed + 1 } else none
  | .readFile _ limit, (r : Str × Option Err), s =>
    if limit.all (r.1.length ≤ ·) then some s else none
  | .start n ctx file limit, _, s =>
    if (s.streams n).started then none
    else some (s.modifyStream n fun _ ↦ { started := true, ctx, file, limit })
  | .beginWatch n, (r : Ctx), s =>
    if (s.streams n).started ∧ r = (s.streams n).ctx then some s else none
  | .useStream n, (r : Ctx × File × Option Nat), s =>
    let stream := s.streams n
    if stream.started ∧ r = (stream.ctx, stream.file, stream.limit) then some s else none
  | .consume n count, _, s =>
    some (s.modifyStream n fun stream ↦ { stream with limit := stream.limit.map (· - count) })
  | .select n ctx, (r : Bool), s =>
    if (if r then (s.ctx ctx).isSome else (s.streams n).done) then some s else none
  | .onceDo n, (r : Bool), s =>
    match (s.streams n).once, r with
    | .fresh, true => some (s.modifyStream n ({ · with once := .running }))
    | .finished, false => some s
    | _, _ => none
  | .onceDone n, _, s => some (s.modifyStream n ({ · with once := .finished }))
  | .closeDone n, _, s => some (s.modifyStream n ({ · with done := true }))
  | .storeCloseErr n closeErr, _, s => some (s.modifyStream n ({ · with closeErr }))
  | .loadCloseErr n, (r : Option Err), s => if r = (s.streams n).closeErr then some s else none
  | .random, _, s | .openFile _ _, _, s | .create _ _, _, s | .stat _ _, _, s | .lstat _ _, _, s
  | .readDir _ _ _, _, s | .remove _ _, _, s | .mkdirAll _ _, _, s | .rename _ _ _, _, s
  | .posixRename _ _ _, _, s | .closeSession _, _, s | .seek _ _, _, s | .writeFile _ _, _, s
  | .sync _, _, s | .closeFile _, _, s | .source, _, s => some s

def machine : Machine sig Tid State := ⟨apply⟩

/-- The session of the adapter. -/
def runs : client.Runs machine where
  base := State.toState
  put s s₀ := { s with toState := s₀ }
  put_base _ := rfl
  base_put _ _ := rfl
  put_put _ _ _ := rfl
  apply_eq t c r s := by
    change apply t (client.cmd c) r s = _
    obtain ⟨⟨ctx, mu, session, closed, dialed⟩, streams⟩ := s
    symm
    cases c with
    | lock | unlock => cases mu <;> rfl
    | ctxErr | loadClosed | loadSession => exact map_ite_some _
    | connect =>
        cases r with
        | error => rfl
        | ok => exact map_ite_some _
    | storeClosed | storeSession | release | lstat | stat => rfl

@[reducible] def Returns : Tid → Type
  | .call _ => Outcome
  | .watch _ => Unit

def start (a : Adapter) (calls : Nat → Call) : Config sig State Returns where
  state := {}
  threads
    | .call n => (calls n).run a n
    | .watch n => watch n

/-- The response of a server on which every name is a file and every request
succeeds. -/
def answer (s : State) : (c : Cmd) → c.Resp
  | .ctxErr ctx => s.ctx ctx
  | .ctxDone ctx | .select _ ctx => (s.ctx ctx).isSome
  | .loadClosed => s.closed
  | .loadSession => s.session
  | .connect _ => .ok s.dialed
  | .random => .ok (.replicate 16 0)
  | .openFile _ _ | .create _ _ => .ok 0
  | .stat _ _ | .lstat _ _ => .ok {}
  | .readDir _ _ _ => .ok []
  | .remove _ _ | .mkdirAll _ _ | .rename _ _ _ | .posixRename _ _ _ | .closeSession _ | .seek _ _
  | .sync _ | .closeFile _ => none
  | .readFile _ _ | .source => ([], some (.sentinel .eof))
  | .writeFile _ bytes => (bytes.length, none)
  | .beginWatch n => (s.streams n).ctx
  | .useStream n => ((s.streams n).ctx, (s.streams n).file, (s.streams n).limit)
  | .onceDo n => (s.streams n).once = .fresh
  | .loadCloseErr n => (s.streams n).closeErr
  | .cancel _ _ | .lock | .unlock | .storeClosed | .storeSession _ | .start _ _ _ _
  | .consume _ _ | .onceDone _ | .closeDone _ | .storeCloseErr _ _ => ()

/-- A server that has dropped the first session. -/
def dropped (_ : Tid) (s : State) : (c : Cmd) → c.Resp
  | .lstat 0 _ => .error (.sentinel .eof)
  | c => answer s c

end GoFilesystem.Sftp
