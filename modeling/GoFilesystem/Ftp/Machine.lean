import GoFilesystem.Ftp.Adapter

/-!
# One adapter and everyone who uses it

The state that the goroutines of one adapter share, and the effect of their
commands on it.  Any number of calls run at once, each in its own goroutine, and
with every call of `Open` there are the two goroutines that it may start.  What
the remote side answers is arbitrary; the connector returns a new session or an
error.
-/

namespace GoFilesystem.Ftp

open Go Conc

/-- The goroutines: a call, and those that a call of `Open` starts. -/
inductive Tid where
  | call (n : Nat)
  | transfer (n : StreamId)
  | watch (n : StreamId)
deriving DecidableEq

/-- The call on whose behalf a goroutine acts. -/
def Tid.owner : Tid → Nat
  | .call n | .transfer n | .watch n => n

/-- A `sync.Once` whose function is not running, is run by a call, or is over. -/
inductive Once where
  | fresh
  | running (n : Nat)
  | finished
deriving DecidableEq

/-- Where `watchCancellation` is. -/
inductive Watcher where
  | waiting
  | cancelling
  | over
deriving DecidableEq

/-- One call of `Retrieve`: the bytes it wrote, and what it returned if it has. -/
structure Attempt where
  bytes : Str := []
  result : Option (Option Err) := none
deriving DecidableEq

/-- A `readStream` with its pipe and its goroutines. -/
structure Stream where
  started : Bool := false
  session : Session := 0
  ctx : Ctx := 0
  path : Path := .root
  pipe : Pipe.State UInt8 Err := {}
  /-- Whether `done` is closed. -/
  done : Bool := false
  once : Once := .fresh
  watcher : Watcher := .waiting
  /-- History: the calls of `Retrieve`, the latest first. -/
  attempts : List Attempt := []

/-- The calls of `Retrieve` after the latest one has gone one step further. -/
def advanceAttempt (step : Retrieval) : List Attempt → List Attempt
  | [] => []
  | attempt :: attempts =>
    match step with
    | .write bytes => { attempt with bytes := attempt.bytes ++ bytes } :: attempts
    | .done err => { attempt with result := some err } :: attempts

structure State extends Remote.State Tid where
  /-- The call that has locked `opMu`. -/
  opMu : Option Nat := none
  streams : StreamId → Stream := fun _ ↦ {}

def State.modifyStream (s : State) (n : StreamId) (f : Stream → Stream) : State :=
  { s with streams := Function.update s.streams n (f (s.streams n)) }

def apply (t : Tid) : (c : Cmd) → c.Resp → State → Option State
  | .ctxErr ctx, (r : Option CtxErr), s => if r = s.ctx ctx then some s else none
  | .ctxDone ctx, (r : Bool), s => if r = (s.ctx ctx).isSome then some s else none
  | .cancel ctx err, _, s =>
    some { s with ctx := Function.update s.ctx ctx (s.ctx ctx <|> some err) }
  | .opLock, _, s => if s.opMu = none then some { s with opMu := some t.owner } else none
  | .opUnlock, _, s => if s.opMu ≠ none then some { s with opMu := none } else none
  | .lock, _, s => if s.mu = none then some { s with mu := some t } else none
  | .unlock, _, s => if s.mu ≠ none then some { s with mu := none } else none
  | .loadClosed, (r : Bool), s => if r = s.closed then some s else none
  | .storeClosed, _, s => some { s with closed := true }
  | .loadSession, (r : Option Session), s => if r = s.session then some s else none
  | .storeSession session, _, s => some { s with session }
  | .connect _, (r : Except Err Session), s =>
    match r with
    | .error _ => some s
    | .ok session =>
      if session = s.dialed then some { s with dialed := s.dialed + 1 } else none
  | .start n session ctx path, _, s =>
    if (s.streams n).started then none
    else some (s.modifyStream n fun _ ↦ { started := true, session, ctx, path })
  | .beginTransfer n, (r : Session × Ctx × Path), s =>
    let stream := s.streams n
    if stream.started ∧ r = (stream.session, stream.ctx, stream.path) then some s else none
  | .beginWatch n, (r : Ctx), s | .useStream n, (r : Ctx), s =>
    if (s.streams n).started ∧ r = (s.streams n).ctx then some s else none
  | .pipe n c, r, s =>
    (Pipe.apply c r (s.streams n).pipe).map fun pipe ↦ s.modifyStream n ({ · with pipe })
  | .select n ctx, (r : Bool), s =>
    if r then
      if (s.ctx ctx).isSome then some (s.modifyStream n ({ · with watcher := .cancelling }))
      else none
    else if (s.streams n).done then some (s.modifyStream n ({ · with watcher := .over }))
    else none
  | .endSelect n, _, s => some (s.modifyStream n ({ · with watcher := .over }))
  | .onceDo n, (r : Bool), s =>
    match (s.streams n).once, r with
    | .fresh, true => some (s.modifyStream n ({ · with once := .running t.owner }))
    | .finished, false => some s
    | _, _ => none
  | .onceDone n, _, s => some (s.modifyStream n ({ · with once := .finished }))
  | .closeDone n, _, s => some (s.modifyStream n ({ · with done := true }))
  | .awaitDone n, _, s => if (s.streams n).done then some s else none
  | .retrieve _ _, _, s =>
    some (s.modifyStream t.owner fun stream ↦ { stream with attempts := {} :: stream.attempts })
  | .retrieving _, (r : Retrieval), s =>
    some (s.modifyStream t.owner fun stream ↦
      { stream with attempts := advanceAttempt r stream.attempts })
  | .random, _, s | .stat _ _, _, s | .list _ _, _, s | .makeDir _ _, _, s | .delete _ _, _, s
  | .rename _ _ _, _, s | .store _ _ _ _, _, s | .quit _, _, s | .abort _, _, s => some s

/-- The commands that leave the locks and the streams alone. -/
def Quiet : Cmd → Prop
  | .opLock | .opUnlock | .lock | .unlock | .start _ _ _ _ | .pipe _ _ | .select _ _ | .endSelect _
  | .onceDo _ | .onceDone _ | .closeDone _ | .retrieve _ _ | .retrieving _ => False
  | _ => True

theorem apply_quiet {t : Tid} {c : Cmd} {r : c.Resp} {s s' : State} (hc : Quiet c)
    (h : apply t c r s = some s') :
    s'.opMu = s.opMu ∧ s'.mu = s.mu ∧ s'.streams = s.streams := by
  cases c with
  | opLock | opUnlock | lock | unlock | start | pipe | select | endSelect | onceDo | onceDone
  | closeDone | retrieve | retrieving => exact hc.elim
  | ctxErr | ctxDone | loadClosed | loadSession | beginTransfer | beginWatch | useStream
  | awaitDone =>
      obtain ⟨-, rfl⟩ := of_ite_some h
      exact ⟨rfl, rfl, rfl⟩
  | connect ctx =>
      cases r with
      | error err =>
          cases h
          exact ⟨rfl, rfl, rfl⟩
      | ok session =>
          obtain ⟨-, rfl⟩ := of_ite_some h
          exact ⟨rfl, rfl, rfl⟩
  | _ =>
      cases h
      exact ⟨rfl, rfl, rfl⟩

variable {n : StreamId}

section Inversion

variable {t : Tid} {s s' : State} {r : Unit}

theorem apply_start {session : Session} {ctx : Ctx} {path : Path}
    (h : apply t (.start n session ctx path) r s = some s') :
    (s.streams n).started = false ∧
      s' = s.modifyStream n fun _ ↦ { started := true, session, ctx, path } := by
  obtain ⟨hstarted, hs⟩ := of_ite_none h
  exact ⟨Bool.not_eq_true _ ▸ hstarted, hs.symm⟩

theorem apply_pipe {c : Pipe.Cmd UInt8 Err} {r : c.Resp} (h : apply t (.pipe n c) r s = some s') :
    ∃ pipe,
      Pipe.apply c r (s.streams n).pipe = some pipe ∧ s' = s.modifyStream n ({ · with pipe }) := by
  obtain ⟨pipe, hpipe, rfl⟩ := Option.map_eq_some_iff.mp h
  exact ⟨pipe, hpipe, rfl⟩

theorem apply_select {ctx : Ctx} {r : Bool} (h : apply t (.select n ctx) r s = some s') :
    (r = true ∧ s' = s.modifyStream n ({ · with watcher := .cancelling })) ∨
      (r = false ∧ s' = s.modifyStream n ({ · with watcher := .over })) := by
  cases r with
  | true =>
      obtain ⟨-, hs⟩ := of_ite_some h
      exact .inl ⟨rfl, hs.symm⟩
  | false =>
      obtain ⟨-, hs⟩ := of_ite_some h
      exact .inr ⟨rfl, hs.symm⟩

theorem apply_onceDo {r : Bool} (h : apply t (.onceDo n) r s = some s') :
    ((s.streams n).once = .fresh ∧ r = true ∧
      s' = s.modifyStream n ({ · with once := .running t.owner })) ∨ (r = false ∧ s' = s) := by
  dsimp only [apply] at h
  split at h
  · exact .inl ⟨‹_›, rfl, (Option.some.inj h).symm⟩
  · exact .inr ⟨rfl, (Option.some.inj h).symm⟩
  · contradiction

end Inversion

@[simp] theorem streams_modifyStream_self (s : State) (n : StreamId) (f : Stream → Stream) :
    (s.modifyStream n f).streams n = f (s.streams n) := Function.update_self ..

theorem streams_modifyStream_of_ne (s : State) {m n : StreamId} (hm : m ≠ n)
    (f : Stream → Stream) : (s.modifyStream n f).streams m = s.streams m :=
  Function.update_of_ne hm ..

theorem modifyStream_pipe_self (s : State) (n : StreamId) :
    s.modifyStream n ({ · with pipe := (s.streams n).pipe }) = s := by
  unfold State.modifyStream
  rw [Function.update_eq_self]

def machine : Machine sig Tid State := ⟨apply⟩

/-- The session of the adapter. -/
def runs : client.Runs machine where
  base := State.toState
  put s s₀ := { s with toState := s₀ }
  put_base _ := rfl
  base_put _ _ := rfl
  put_put _ _ _ := rfl
  apply_eq t c r s := by
    change apply t (client.cmd c) r s = _
    obtain ⟨⟨ctx, mu, session, closed, dialed⟩, opMu, streams⟩ := s
    symm
    cases c with
    | lock | unlock => cases mu <;> rfl
    | ctxErr | loadClosed | loadSession => exact map_ite_some _
    | connect =>
        cases r with
        | error => rfl
        | ok => exact map_ite_some _
    | storeClosed | storeSession | release | lstat | stat => rfl

@[reducible] def Returns : Tid → Type
  | .call _ => Outcome
  | _ => Unit

def start (a : Adapter) (calls : Nat → Call) : Config sig State Returns where
  state := {}
  threads
    | .call n => (calls n).run a n
    | .transfer n => transfer a n
    | .watch n => watchCancellation n

/-- The response of a server on which every name is a file and every request
succeeds; `retrieval` says how `Retrieve` goes on from the calls made so far. -/
def answer (retrieval : List Attempt → Retrieval) (t : Tid) (s : State) : (c : Cmd) → c.Resp
  | .ctxErr ctx => s.ctx ctx
  | .ctxDone ctx => (s.ctx ctx).isSome
  | .loadClosed => s.closed
  | .loadSession => s.session
  | .connect _ => .ok s.dialed
  | .random => .ok (.replicate 16 0)
  | .stat _ _ => .ok {}
  | .list _ _ => .ok []
  | .makeDir _ _ | .delete _ _ | .rename _ _ _ | .store _ _ _ _ | .quit _ | .abort _ => none
  | .retrieving _ => retrieval (s.streams t.owner).attempts
  | .beginTransfer n => ((s.streams n).session, (s.streams n).ctx, (s.streams n).path)
  | .beginWatch n | .useStream n => (s.streams n).ctx
  | .pipe n .enterRead =>
    if (s.streams n).pipe.done then some (s.streams n).pipe.readCloseError else none
  | .pipe n .receive =>
    match (s.streams n).pipe.offer with
    | .pending bytes => .ok bytes
    | _ => .error (s.streams n).pipe.readCloseError
  | .pipe n .enterWrite =>
    if (s.streams n).pipe.done then some (s.streams n).pipe.writeCloseError else none
  | .pipe n .await =>
    match (s.streams n).pipe.offer with
    | .taken count => .ok count
    | _ => .error (s.streams n).pipe.writeCloseError
  | .pipe _ (.offer _) | .pipe _ (.closeRead _) | .pipe _ (.closeWrite _) => ()
  | .select _ ctx => (s.ctx ctx).isSome
  | .onceDo n => (s.streams n).once = .fresh
  | .cancel _ _ | .opLock | .opUnlock | .lock | .unlock | .storeClosed | .storeSession _
  | .retrieve _ _ | .start _ _ _ _ | .endSelect _ | .onceDone _ | .closeDone _
  | .awaitDone _ => ()

/-- A server that has dropped the first session. -/
def dropped (t : Tid) (s : State) : (c : Cmd) → c.Resp
  | .stat 0 _ => .error (.sentinel .eof)
  | c => answer (fun _ ↦ .done none) t s c

end GoFilesystem.Ftp
