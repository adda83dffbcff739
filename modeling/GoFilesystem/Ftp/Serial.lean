import GoFilesystem.Conc.Handoff
import GoFilesystem.Ftp.Machine
import GoFilesystem.Ftp.Scope

/-!
# The order of the commands on the control connection

`opMu` keeps the operations of an adapter from using its session at once.  An
operation locks it and unlocks it on every way out, except that `Open` leaves this
to the goroutine that transfers the file: it hands `opMu` over.  Everything in
between only uses the session, or has nothing to do with `opMu`.

`Abort` is the one request that is sent without `opMu`.
-/

namespace GoFilesystem.Ftp

open Go Conc Handoff

/-- The requests on a session that `opMu` is for: all but `Abort`. -/
def Cmd.remote : Cmd → Bool
  | .stat _ _ | .list _ _ | .makeDir _ _ | .delete _ _ | .rename _ _ _ | .store _ _ _ _
  | .retrieve _ _ | .retrieving _ | .quit _ => true
  | _ => false

/-- What a command means for `opMu`. -/
def Cmd.turn : Cmd → Handoff.Event Tid
  | .opLock => .lock
  | .opUnlock => .unlock
  | .start n _ _ _ => .hand (.transfer n)
  | .beginTransfer n => .take (.transfer n)
  | c => if c.remote then .guarded else .other

/-- `opMu`, and the goroutines that it has been handed to. -/
def State.turns (s : State) : Handoff.Shared Tid Nat where
  owner := s.opMu
  handed
    | .transfer n => (s.streams n).started
    | _ => false

theorem turns_modifyStream {s : State} {n : StreamId} {f : Stream → Stream}
    (hf : (f (s.streams n)).started = (s.streams n).started) :
    (s.modifyStream n f).turns = s.turns := by
  unfold State.turns
  congr 1
  funext t
  cases t with
  | transfer m =>
      dsimp only
      by_cases hm : m = n
      · rw [hm, streams_modifyStream_self, hf]
      · rw [streams_modifyStream_of_ne s hm]
  | _ => rfl

theorem turns_start {s : State} {n : StreamId} {x : Stream} (hx : x.started = true) :
    (s.modifyStream n fun _ ↦ x).turns =
      { s.turns with handed := Function.update s.turns.handed (.transfer n) true } := by
  unfold State.turns
  congr 1
  funext t
  by_cases ht : t = .transfer n
  · rw [ht, Function.update_self]
    dsimp only
    rw [streams_modifyStream_self, hx]
  · rw [Function.update_of_ne ht]
    cases t with
    | transfer m =>
        dsimp only
        rw [streams_modifyStream_of_ne s fun hm ↦ ht (congrArg _ hm)]
    | _ => rfl

/-- The commands of the adapter as events of `opMu`. -/
def serial : Handover Nat machine where
  activity := Tid.owner
  peer
    | .transfer _ => true
    | _ => false
  event := Cmd.turn
  view := State.turns
  act_of_apply t c r s s' h := by
    have happly : apply t c r s = some s' := h
    cases c with
    | opLock =>
        obtain ⟨hfree, rfl⟩ := of_ite_some happly
        exact if_pos hfree
    | opUnlock =>
        obtain ⟨hheld, rfl⟩ := of_ite_some happly
        exact if_pos hheld
    | start n session ctx path =>
        obtain ⟨hfresh, rfl⟩ := apply_start happly
        exact (if_pos hfresh).trans (congrArg some (turns_start rfl).symm)
    | beginTransfer n =>
        obtain ⟨⟨hstarted, -⟩, rfl⟩ := of_ite_some happly
        exact if_pos hstarted
    | pipe n c =>
        obtain ⟨p, -, rfl⟩ := apply_pipe happly
        exact congrArg some (turns_modifyStream rfl).symm
    | select n ctx =>
        rcases apply_select happly with ⟨-, rfl⟩ | ⟨-, rfl⟩
        · exact congrArg some (turns_modifyStream rfl).symm
        · exact congrArg some (turns_modifyStream rfl).symm
    | onceDo n =>
        rcases apply_onceDo happly with ⟨-, -, rfl⟩ | ⟨-, rfl⟩
        · exact congrArg some (turns_modifyStream rfl).symm
        · rfl
    | endSelect | onceDone | closeDone | retrieve | retrieving =>
        cases happly
        exact congrArg some (turns_modifyStream rfl).symm
    | lock =>
        obtain ⟨-, rfl⟩ := of_ite_some happly
        rfl
    | unlock =>
        obtain ⟨-, rfl⟩ := of_ite_some happly
        rfl
    | _ =>
        obtain ⟨hop, -, hstreams⟩ := apply_quiet (by trivial) happly
        refine congrArg some ?_
        unfold State.turns
        rw [hop, hstreams]

/-! ## What goes on under the lock -/

/-- The commands that are not about `opMu`. -/
def Cmd.outer (c : Cmd) : Prop := c.turn = .other

/-- The commands between the acquisition of `opMu` and its release. -/
def Cmd.inner (c : Cmd) : Prop := c.turn = .guarded ∨ c.outer

theorem outer_of_background {α : Type} {p : Prog sig α} (h : p.Within Cmd.Background) :
    p.Within Cmd.outer := by
  refine h.mono fun c hc ↦ ?_
  cases c with
  | ctxErr | ctxDone | lock | unlock | loadSession | abort | beginWatch | useStream | pipe | select
  | endSelect | onceDo | onceDone | awaitDone => rfl
  | _ => contradiction

variable {a : Adapter}

/-- What sees to the session. -/
theorem inner_of_upkeep {c : Remote.Cmd} (h : c.upkeep = true) : (client.cmd c).inner := by
  cases c with
  | lstat | stat => contradiction
  | release => exact .inl rfl
  | _ => exact .inr rfl

theorem currentSession_within (ctx : Ctx) : (currentSession ctx).Within Cmd.inner :=
  client.currentSession_within (fun _ ↦ inner_of_upkeep) ctx

theorem invalidate_within (failed : Session) : (invalidate failed).Within Cmd.inner :=
  client.invalidate_within (fun _ ↦ inner_of_upkeep) failed

/-- An operation on a session. -/
theorem inner_of_on {α : Type} {p : Prog sig α} {session : Session}
    (h : p.Within (Cmd.On session)) : p.Within Cmd.inner := by
  refine h.mono fun c hc ↦ ?_
  cases c with
  | stat | list | makeDir | delete | rename | store => exact .inl rfl
  | ctxErr | random => exact .inr rfl
  | _ => exact absurd hc (by simp [Cmd.On, Cmd.target, Cmd.aside])

theorem prepareOpen_within (ctx : Ctx) (session : Session) (path : Path) :
    (prepareOpen a ctx session path).Within Cmd.inner := by
  refine .get (inner_of_on (checkedStat_within path session)) (fun err ↦ ?_) fun _ ↦ trivial
  dsimp only
  split
  · exact (invalidate_within session).bind fun _ ↦ .get (currentSession_within ctx)
      (fun _ ↦ trivial) fun reconnected ↦ .get (inner_of_on (checkedStat_within path reconnected))
        (fun _ ↦ trivial) fun _ ↦ trivial
  · trivial

theorem retrieve_within (n : StreamId) (session : Session) (name : Str) (wroteAny : Bool) :
    (retrieve n session name wroteAny).Within Cmd.inner := by
  refine .step (.inl rfl) fun _ ↦ .loop (fun wroteAny ↦ .step (.inl rfl) ?_) _
  rintro (bytes | err)
  · exact ((outer_of_background (pipeWrite_within n bytes)).mono fun _ ↦ .inr).bind fun _ ↦ trivial
  · trivial

theorem attempts_within (n : StreamId) (session : Session) (ctx : Ctx) (path : Path) :
    (attempts a n session ctx path).Within Cmd.inner := by
  refine (retrieve_within n session _ false).bind ?_
  rintro ⟨_ | err, wroteAny⟩
  · trivial
  · dsimp only
    split
    · exact .check (.command (.inr rfl)) (fun _ ↦ trivial) ((invalidate_within session).bind fun _ ↦
        .get (currentSession_within ctx) (fun _ ↦ trivial) fun reconnected ↦
          (retrieve_within n reconnected _ wroteAny).bind fun _ ↦ trivial)
    · trivial

/-! ## Who locks and who unlocks -/

/-- A goroutine may run the program from a phase, and ends without `opMu`. -/
def Serves {α : Type} (t : Tid) (phase : Handoff.Phase) (p : Prog sig α) : Prop :=
  serial.usage.Follows p ⟨t, phase⟩ fun _ y ↦ y = ⟨t, .outside⟩

section Rules

variable {α β : Type} {t : Tid} {phase : Handoff.Phase} {f : β → Prog sig α}

theorem Serves.ret (result : α) : Serves t .outside (pure result) := rfl

theorem Serves.bind {p : Prog sig β} (hp : Serves t phase p) (hf : ∀ b, Serves t .outside (f b)) :
    Serves t phase (p >>= f) := by
  refine Usage.Follows.bind hp ?_
  rintro b _ rfl
  exact hf b

/-- A part of a program that leaves `opMu` alone. -/
theorem Serves.other {p : Prog sig β} (hp : p.Within Cmd.outer) (hf : ∀ b, Serves t phase (f b)) :
    Serves t phase (p >>= f) := by
  refine (serial.follows_other hp).bind ?_
  rintro b _ rfl
  exact hf b

theorem Serves.of_background {p : Prog sig α} (h : p.Within Cmd.Background) :
    Serves t .outside p :=
  serial.follows_other (outer_of_background h)

/-- The acquisition of `opMu`. -/
theorem Serves.lock {f : Unit → Prog sig α} (hf : Serves t .inside (f ())) :
    Serves t .outside (perform .opLock >>= f) := by
  refine (serial.follows (p := .inside) .lock).bind ?_
  rintro _ _ rfl
  exact hf

/-- What is done under `opMu`. -/
theorem Serves.inner {p : Prog sig β} (hp : p.Within Cmd.inner) (hf : ∀ b, Serves t .inside (f b)) :
    Serves t .inside (p >>= f) := by
  refine (serial.follows_guarded hp rfl).bind ?_
  rintro b _ rfl
  exact hf b

/-- The release of `opMu`. -/
theorem Serves.unlock {f : Unit → Prog sig α} (hf : Serves t .outside (f ())) :
    Serves t .inside (perform .opUnlock >>= f) := by
  refine (serial.follows (p := .outside) .unlock).bind ?_
  rintro _ _ rfl
  exact hf

end Rules

variable {t : Tid}

theorem withLockedResult_serves {α : Type} (ctx : Ctx) (retry : Bool)
    {operation : Session → Prog sig (Except Err α)}
    (h : ∀ session, (operation session).Within Cmd.inner) :
    Serves t .outside (withLockedResult ctx retry operation) :=
  .lock (.inner (client.withSession_within (fun _ ↦ inner_of_upkeep) ctx retry h) fun _ ↦
    .unlock (.ret _))

theorem stat_serves (ctx : Ctx) (path : Path) : Serves t .outside (stat a ctx path) := by
  refine (withLockedResult_serves ctx true fun session ↦
    inner_of_on (checkedStat_within path session)).bind ?_
  rintro (err | entry)
  · exact .ret _
  · exact .ret _

theorem delete_serves (ctx : Ctx) (path : Path) : Serves t .outside (delete a ctx path) := by
  refine (withLockedResult_serves ctx false fun session ↦
    inner_of_on (deleteOn_within path session)).bind ?_
  rintro (err | _)
  · exact .ret _
  · exact .ret _

theorem list_serves (ctx : Ctx) (directory : Path) (options : ListOptions) :
    Serves t .outside (list a ctx directory options) := by
  unfold list
  split
  · exact .ret _
  · refine (withLockedResult_serves ctx true fun session ↦
      inner_of_on (listTree_within ctx directory options.recursive _ session)).bind ?_
    rintro (err | entries)
    · exact .ret _
    · exact .ret _

theorem write_serves (ctx : Ctx) (path : Path) (source : Source) (options : WriteOptions) :
    Serves t .outside (write a ctx path source options) := by
  unfold write
  split
  · exact .ret _
  split
  · exact .ret _
  refine .lock (.inner (currentSession_within ctx) ?_)
  rintro (err | session)
  · exact .unlock (.ret _)
  · refine .inner (inner_of_on (writeLocked_within ctx session path source)) fun err ↦ .unlock ?_
    cases err with
    | none => exact stat_serves ctx path
    | some err => exact .ret _

theorem close_serves : Serves t .outside close :=
  .other (outer_of_background abortTransfer_within) fun _ ↦
    .lock (.inner (client.close_within fun _ hc _ ↦ inner_of_upkeep hc) fun _ ↦ .unlock (.ret _))

/-- `Open` unlocks `opMu` or hands it to the goroutine that transfers the file. -/
theorem openStream_serves (n : Nat) (ctx : Ctx) (path : Path) :
    Serves (.call n) .outside (openStream a n ctx path) := by
  refine .other (p := perform (.ctxErr ctx)) (.command rfl) ?_
  rintro (_ | err)
  · refine .lock (.inner (currentSession_within ctx) ?_)
    rintro (err | session)
    · exact .unlock (.ret _)
    · refine .inner (prepareOpen_within ctx session path) ?_
      rintro (err | ⟨session, entry⟩)
      · exact .unlock (.ret _)
      · dsimp only
        split
        · exact .unlock (.ret _)
        · have hhand : Phase.Step serial.activity serial.peer (.call n) (.hand (.transfer n))
            .inside .outside := .hand rfl rfl
          refine (serial.follows hhand).bind ?_
          rintro _ _ rfl
          exact rfl
  · exact .ret _

theorem transfer_serves (n : StreamId) : Serves (.transfer n) .waiting (transfer a n) := by
  refine (serial.follows (p := .inside) .take).bind ?_
  rintro ⟨session, ctx, path⟩ _ rfl
  refine Serves.inner (attempts_within n session ctx path) fun err ↦ ?_
  refine .inner (p := perform (.ctxErr ctx)) (.command (.inr rfl)) fun contextErr ↦ ?_
  refine .inner (p := perform _) (.command (.inr rfl)) fun _ ↦
    .inner (p := perform _) (.command (.inr rfl)) fun _ ↦ ?_
  exact serial.follows .unlock

theorem Call.run_serves (n : Nat) (call : Call) : Serves (.call n) .outside (call.run a n) := by
  cases call with
  | openStream ctx path => exact (openStream_serves n ctx path).bind fun _ ↦ .ret _
  | read stream => exact (Serves.of_background (read_within stream)).bind fun _ ↦ .ret _
  | closeStream stream =>
      exact (Serves.of_background (closeStream_within stream)).bind fun _ ↦ .ret _
  | write ctx path source options =>
      exact (write_serves ctx path source options).bind fun _ ↦ .ret _
  | delete ctx path => exact (delete_serves ctx path).bind fun _ ↦ .ret _
  | stat ctx path => exact (stat_serves ctx path).bind fun _ ↦ .ret _
  | list ctx directory options => exact (list_serves ctx directory options).bind fun _ ↦ .ret _
  | close => exact close_serves.bind fun _ ↦ .ret _
  | cancel ctx err => exact .other (p := perform (.cancel ctx err)) (.command rfl) fun _ ↦ .ret _

/-! ## Runs -/

variable {calls : Nat → Call} {trace : List (Label sig Tid)} {c : Config sig State Returns}

theorem turns_init : ({} : State).turns = ⟨none, fun _ ↦ false⟩ := by
  unfold State.turns
  congr 1
  funext t
  cases t <;> rfl

theorem serial_of_run (hrun : Run machine (start a calls) trace c) : Serial serial trace c := by
  refine serial.serial (c := start a calls) (Q := fun t _ y ↦ y = ⟨t, .outside⟩) ?_ ?_ turns_init
    ?_ hrun
  · exact fun cmd ↦ ⟨answer (fun _ ↦ .done none) (.call 0) {} cmd⟩
  · intro t
    cases t with
    | call n => exact (calls n).run_serves n
    | transfer n => exact transfer_serves n
    | watch n => exact Serves.of_background (watchCancellation_within n)
  · rintro t r _ rfl
    rfl

theorem turn_of_remote {cmd : Cmd} (h : cmd.remote = true) : cmd.turn = .guarded := by
  cases cmd with
  | stat | list | makeDir | delete | rename | store | retrieve | retrieving | quit => rfl
  | _ => contradiction

/-- **Command serialization.**  In every run, a goroutine that is about to send a
request other than `Abort`, or to unlock `opMu`, is the one that `opMu` belongs to:
the operation that has locked it, or the transfer it was handed to.  Each time it
was locked it has been unlocked once, by that operation or that transfer, unless
the one it belongs to has not returned. -/
theorem commands_serialized (hrun : Run machine (start a calls) trace c) :
    (∀ t cmd k, c.threads t = .call cmd k → cmd.remote = true ∨ cmd = .opUnlock →
      holder (serial.history trace) = some t ∧ c.state.opMu = some t.owner) ∧
    ∀ before t after, serial.history trace = before ++ (t, .lock) :: after →
      Released Tid.owner t after ∨ ((∀ x ∈ after, ¬x.2.Turns) ∧
        ∃ t', holder (serial.history trace) = some t' ∧ t'.owner = t.owner ∧
          ∀ r, c.threads t' ≠ .ret r) := by
  have hserial := serial_of_run hrun
  refine ⟨?_, hserial.released⟩
  intro t cmd k hthread hcmd
  have hholder : holder (serial.history trace) = some t := by
    rcases hcmd with hremote | rfl
    · have hlegal := hserial.next t cmd k hthread
      rw [show serial.event cmd = .guarded from turn_of_remote hremote] at hlegal
      exact hlegal nofun
    · exact hserial.next t .opUnlock k hthread nofun
  refine ⟨hholder, hserial.owner.trans ?_⟩
  rw [hholder]
  rfl

/-- The transfer of a stream that has been opened is about to retrieve the file, and
`opMu` belongs to it. -/
theorem commands_serialized_open :
    ∃ trace c, Run machine (start ⟨.lit "/", 10⟩ fun _ ↦ .openStream 0 ⟨.lit "a", .inr (by decide)⟩)
        trace c ∧
      (∃ k, c.threads (.transfer 0) = .call (.retrieve 0 (.lit "/a")) k) ∧
      holder (serial.history trace) = some (.transfer 0) := by
  obtain ⟨trace, c, k, hexec, hthread⟩ : ∃ trace c k,
      machine.exec (fun _ _ ↦ True) (answer fun _ ↦ .done none)
        (.replicate 10 (.call 0) ++ [.transfer 0])
        (start ⟨.lit "/", 10⟩ fun _ ↦ .openStream 0 ⟨.lit "a", .inr (by decide)⟩) =
        some (trace, c) ∧
      c.threads (.transfer 0) = .call (.retrieve 0 (.lit "/a")) k := ⟨_, _, _, rfl, rfl⟩
  have hrun := (Machine.run_of_exec hexec).run
  have hholder := ((commands_serialized hrun).1 _ _ k hthread (.inl rfl)).1
  exact ⟨trace, c, hrun, ⟨k, hthread⟩, hholder⟩

end GoFilesystem.Ftp
