import GoFilesystem.Ftp.Machine
import GoFilesystem.Ftp.Scope

/-!
# The session of the FTP adapter

The commands of the adapter as events of the slot that holds the session.  Every program
of the adapter keeps to their order.
-/

namespace GoFilesystem.Ftp

open Go Conc Slot

/-- The error that `Retrieve` has returned. -/
def Retrieval.failure : Retrieval → Option Err
  | .write _ => none
  | .done err => err

def event : (c : Cmd) → c.Resp → Slot.Event
  | .lock, _ => .lock
  | .unlock, _ => .unlock
  | .loadClosed, (r : Bool) => .loadShut r
  | .storeClosed, _ => .storeShut
  | .loadSession, (r : Option Session) => .load r
  | .storeSession session, _ => .store session
  | .connect _, (r : Except Err Session) => .make r.toOption
  | .quit session, _ => .release session
  | .stat session _, (r : Except Err RemoteEntry) =>
    .use session ((failure r).any isConnectionError)
  | .list session _, (r : Except Err (List RemoteEntry)) =>
    .use session ((failure r).any isConnectionError)
  | .makeDir session _, (r : Option Err) | .delete session _, (r : Option Err)
  | .rename session _ _, (r : Option Err) | .store session _ _ _, (r : Option Err) =>
    .use session (r.any isConnectionError)
  | .retrieving session, (r : Retrieval) => .use session (r.failure.any isConnectionError)
  | _, _ => .other

def sessions : Guards machine where
  event := event
  view s := ⟨s.mu, s.session, s.closed, s.dialed⟩
  act_of_apply t c r s s' h := by
    have happly : apply t c r s = some s' := h
    cases c with
    | lock =>
        obtain ⟨hfree, rfl⟩ := of_ite_some happly
        exact if_pos (Option.isNone_iff_eq_none.mpr hfree)
    | unlock =>
        obtain ⟨hheld, rfl⟩ := of_ite_some happly
        exact if_pos (Option.isSome_iff_ne_none.mpr hheld)
    | loadClosed | loadSession =>
        obtain ⟨hr, rfl⟩ := of_ite_some happly
        exact if_pos hr
    | connect ctx =>
        cases r with
        | error err =>
            cases happly
            rfl
        | ok session =>
            obtain ⟨hr, rfl⟩ := of_ite_some happly
            exact if_pos hr
    | opLock | opUnlock | ctxErr | ctxDone | beginTransfer | beginWatch | useStream | awaitDone =>
        obtain ⟨-, rfl⟩ := of_ite_some happly
        rfl
    | start =>
        obtain ⟨-, rfl⟩ := apply_start happly
        rfl
    | pipe =>
        obtain ⟨-, -, rfl⟩ := apply_pipe happly
        rfl
    | select =>
        rcases apply_select happly with ⟨-, rfl⟩ | ⟨-, rfl⟩
        · rfl
        · rfl
    | onceDo =>
        rcases apply_onceDo happly with ⟨-, -, rfl⟩ | ⟨-, rfl⟩
        · rfl
        · rfl
    | _ =>
        cases happly
        rfl

variable {x : Slot.Local} {a : Adapter}

/-! ## The session -/

theorem guarded : client.Guarded sessions where
  event_eq c _ := by cases c <;> rfl
  readDir ctx session name := by
    refine .step (fun _ ↦ trivial) ?_
    rintro (_ | err)
    · exact .command fun _ ↦ rfl
    · exact .ret (by cases err <;> rfl)
  linkIsDenied _ := rfl
  path _ := rfl

theorem outside_abortTransfer : sessions.Outside abortTransfer := by
  refine fun x hx ↦ sessions.follows_step hx fun _ ↦ ⟨_, .lock, sessions.follows_step rfl ?_⟩
  refine fun session ↦ ⟨_, .look session, sessions.follows_step rfl fun _ ↦ ⟨_, .pass session, ?_⟩⟩
  cases session with
  | none => exact rfl
  | some session => exact sessions.follows_step rfl fun _ ↦ ⟨_, .other, rfl⟩

/-! ## Operations on a session -/

/-- An operation that makes all its requests on one session. -/
theorem outside_of_within {α : Type} {session : Session} {p : Prog sig α}
    (h : p.Within (Cmd.On session)) : sessions.Outside p := by
  refine .of_within h fun c r hc ↦ ?_
  cases c with
  | stat | list | makeDir | delete | rename | store | ctxErr | random => trivial
  | _ => exact hc.elim nofun nofun

/-! ## Calls -/

variable (n : StreamId) (ctx : Ctx)

theorem outside_withLockedResult {α : Type} (retry : Bool)
    {operation : Session → Prog sig (Except Err α)}
    (h : ∀ session, sessions.Uses isConnectionError session failure (operation session)) :
    sessions.Outside (withLockedResult ctx retry operation) :=
  .step (fun _ ↦ trivial) fun _ ↦ (guarded.outside_withSession ctx retry h).bind fun _ ↦
    .step (fun _ ↦ trivial) fun _ ↦ .ret _

theorem outside_stat (path : Path) : sessions.Outside (stat a ctx path) :=
  .get (outside_withLockedResult ctx true (guarded.uses_checkedStat a.root path)) (fun _ ↦ .ret _)
    fun _ ↦ .ret _

theorem outside_delete (path : Path) : sessions.Outside (delete a ctx path) := by
  refine .get (outside_withLockedResult ctx false fun session ↦
    (guarded.uses_rejectLinks session _).bind ?_)
    (fun _ ↦ .ret _) fun _ ↦ .ret _
  rintro (_ | err)
  · refine .inl (.bind (e := id) (.command fun _ ↦ rfl) ?_)
    rintro (_ | err)
    · exact .inl (.ret rfl)
    · exact .inr ⟨_, rfl, rfl⟩
  · exact .inr ⟨_, rfl, rfl⟩

theorem outside_list (directory : Path) (options : ListOptions) :
    sessions.Outside (list a ctx directory options) := by
  unfold list
  split
  · exact .ret _
  · exact .get (outside_withLockedResult ctx true
      (guarded.uses_listTree a.root ctx directory options.recursive _)) (fun _ ↦ .ret _)
      fun _ ↦ .ret _

theorem outside_write (path : Path) (source : Source) (options : WriteOptions) :
    sessions.Outside (write a ctx path source options) := by
  unfold write
  split
  · exact .ret _
  split
  · exact .ret _
  refine .step (fun _ ↦ trivial) fun _ ↦ .get (guarded.outside_currentSession ctx)
    (fun _ ↦ .step (fun _ ↦ trivial) fun _ ↦ .ret _) fun session ↦ ?_
  refine (outside_of_within (writeLocked_within ctx session path source)).bind fun err ↦
    .step (fun _ ↦ trivial) fun _ ↦ ?_
  cases err with
  | none => exact outside_stat ctx path
  | some err => exact .ret _

/-- When `Close` returns, the goroutine has seen the adapter closed. -/
theorem close_follows (hx : x.phase = .outside) (hcloser : x.closer = true) :
    sessions.usage.Follows close x fun _ y ↦ y.phase = .outside ∧ y.shut = true := by
  refine (sessions.follows_closer (outside_abortTransfer x hx)).bind ?_
  rintro _ y ⟨hy, hrole⟩
  refine sessions.follows_step hy fun _ ↦ ⟨_, .other, ?_⟩
  refine Usage.Follows.bind (guarded.close_follows rfl (hrole.trans hcloser)) fun err z hz ↦ ?_
  exact sessions.follows_step hz.1 fun _ ↦ ⟨_, .other, rfl, (Bool.or_false _).trans hz.2⟩

theorem outside_prepareOpen (session : Session) (path : Path) :
    sessions.Outside (prepareOpen a ctx session path) := by
  refine (guarded.uses_checkedStat a.root path session).handle ?_
  rintro (err | entry)
  · dsimp only
    split
    · rename_i hbroken
      exact .inr ⟨err, rfl, hbroken, (guarded.discards_invalidate session).bind fun _ ↦
        .get (guarded.outside_currentSession ctx) (fun _ ↦ .ret _) fun reconnected ↦
          .get (guarded.uses_checkedStat a.root path reconnected).outside (fun _ ↦ .ret _)
            fun _ ↦ .ret _⟩
    · exact .inl (.ret _)
  · exact .inl (.ret _)

theorem outside_openStream (path : Path) : sessions.Outside (openStream a n ctx path) := by
  have hunlock (err : Err) : sessions.Outside (do
      perform .opUnlock
      return some err) := .step (fun _ ↦ trivial) fun _ ↦ .ret _
  refine .check (.command fun _ ↦ trivial) (fun _ ↦ .ret _) (.step (fun _ ↦ trivial) fun _ ↦ ?_)
  refine .get (guarded.outside_currentSession ctx) (fun _ ↦ hunlock _) fun session ↦ ?_
  refine .get (outside_prepareOpen ctx session path) (fun _ ↦ hunlock _) ?_
  rintro ⟨session, entry⟩
  dsimp only
  split
  · exact hunlock _
  · exact .step (fun _ ↦ trivial) fun _ ↦ .ret _

/-! ## Streams -/

theorem outside_pipeWrite (bytes : Str) :
    sessions.Outside (Pipe.write (fun c ↦ perform (.pipe n c)) bytes) := by
  refine .step (fun _ ↦ trivial) ?_
  rintro (_ | err)
  · refine .loop ?_ _
    rintro ⟨bytes, count⟩
    refine .step (fun _ ↦ trivial) fun _ ↦ .step (fun _ ↦ trivial) ?_
    rintro (err | taken)
    · exact .ret _
    · dsimp only
      split
      · exact .ret _
      · exact .ret _
  · exact .ret _

theorem uses_retrieve (session : Session) (name : Str) (wroteAny : Bool) :
    sessions.Uses isConnectionError session Prod.fst (retrieve n session name wroteAny) := by
  refine .step (fun _ ↦ trivial) fun _ ↦ .loop (fun wroteAny ↦ ?_) _
  refine .bind (e := Retrieval.failure) (.command fun _ ↦ rfl) ?_
  rintro (bytes | err)
  · exact .inl fun x hx ↦ (outside_pipeWrite n bytes x hx).bind fun _ _ hy ↦ ⟨hy, nofun⟩
  · exact .inr ⟨_, rfl, rfl⟩

theorem outside_attempts (session : Session) (ctx : Ctx) (path : Path) :
    sessions.Outside (attempts a n session ctx path) := by
  refine (uses_retrieve n session _ false).handle ?_
  rintro ⟨_ | err, wroteAny⟩
  · exact .inl (.ret _)
  · dsimp only
    split
    · rename_i hretry
      refine .inr ⟨err, rfl, (Bool.and_eq_true_iff.mp hretry).1, fun x hx hused ↦ ?_⟩
      refine sessions.follows_step hx ?_
      rintro (_ | contextErr)
      · refine ⟨_, .other, (guarded.discards_invalidate session).bind (fun _ ↦ ?_) _ rfl hused⟩
        exact .get (guarded.outside_currentSession ctx) (fun _ ↦ .ret _) fun reconnected ↦
          (uses_retrieve n reconnected _ wroteAny).outside.bind fun _ ↦ .ret _
      · exact ⟨_, .other, rfl⟩
    · exact .inl (.ret _)

theorem outside_transfer : sessions.Outside (transfer a n) := by
  refine .step (fun _ ↦ trivial) fun ⟨session, ctx, path⟩ ↦ ?_
  exact (outside_attempts n session ctx path).bind fun _ ↦ .step (fun _ ↦ trivial) fun _ ↦
    .step (fun _ ↦ trivial) fun _ ↦ .step (fun _ ↦ trivial) fun _ ↦ .command fun _ ↦ trivial

theorem outside_watchCancellation : sessions.Outside (watchCancellation n) := by
  refine .step (fun _ ↦ trivial) fun ctx ↦ .step (fun _ ↦ trivial) ?_
  rintro (_ | _)
  · exact .ret _
  · exact .step (fun _ ↦ trivial) fun _ ↦ .step (fun _ ↦ trivial) fun _ ↦
      outside_abortTransfer.bind fun _ ↦ .command fun _ ↦ trivial

theorem outside_read : sessions.Outside (read n) := by
  refine .step (fun _ ↦ trivial) fun ctx ↦ .step (fun _ ↦ trivial) ?_
  rintro (_ | _)
  · exact .get (.check (.command fun _ ↦ trivial) (fun _ ↦ .ret _) (.command fun _ ↦ trivial))
      (fun _ ↦ .ret _) fun _ ↦ .ret _
  · exact .step (fun _ ↦ trivial) fun _ ↦ .ret _

theorem outside_closeStream : sessions.Outside (closeStream n) := by
  have hawait (ctx : Ctx) : sessions.Outside (do
      perform (.awaitDone n)
      let err ← perform (.ctxErr ctx)
      return err.map CtxErr.err) :=
    .step (fun _ ↦ trivial) fun _ ↦ .step (fun _ ↦ trivial) fun _ ↦ .ret _
  refine .step (fun _ ↦ trivial) fun ctx ↦ .step (fun _ ↦ trivial) ?_
  rintro (_ | _)
  · exact hawait ctx
  · exact .step (fun _ ↦ trivial) fun _ ↦ outside_abortTransfer.bind fun _ ↦
      .step (fun _ ↦ trivial) fun _ ↦ hawait ctx

/-! ## Runs -/

/-- Whether a call is one of `Close`. -/
def Call.closes : Call → Bool
  | .close => true
  | _ => false

def closes (calls : Nat → Call) : Tid → Bool
  | .call n => (calls n).closes
  | _ => false

theorem Call.run_follows (n : Nat) (call : Call) (hx : x.phase = .outside)
    (hcloser : x.closer = call.closes) :
    sessions.usage.Follows (call.run a n) x fun _ y ↦
      y.phase = .outside ∧ (call.closes = true → y.shut = true) := by
  have hother {α : Type} {p : Prog sig α} (h : sessions.Outside p) (f : α → Outcome) :
      sessions.usage.Follows (f <$> p) x fun _ y ↦ y.phase = .outside ∧
        (false = true → y.shut = true) :=
    (h x hx).bind fun _ _ hy ↦ ⟨hy, nofun⟩
  cases call with
  | close => exact (close_follows hx hcloser).bind fun _ _ hy ↦ ⟨hy.1, fun _ ↦ hy.2⟩
  | openStream ctx path => exact hother (outside_openStream n ctx path) _
  | read stream => exact hother (outside_read stream) _
  | closeStream stream => exact hother (outside_closeStream stream) _
  | write ctx path source options => exact hother (outside_write ctx path source options) _
  | delete ctx path => exact hother (outside_delete ctx path) _
  | stat ctx path => exact hother (outside_stat ctx path) _
  | list ctx directory options => exact hother (outside_list ctx directory options) _
  | cancel ctx err => exact hother (p := perform (.cancel ctx err)) (.command fun _ ↦ trivial) _

theorem start_conforms (a : Adapter) (calls : Nat → Call) :
    Conforms sessions.usage
      (fun t _ y ↦ y.phase = .outside ∧ (closes calls t = true → y.shut = true)) (start a calls)
      fun t ↦ { closer := closes calls t } := by
  intro t
  cases t with
  | call n => exact (calls n).run_follows n rfl rfl
  | transfer n => exact (outside_transfer n _ rfl).mono fun _ _ hy ↦ ⟨hy, nofun⟩
  | watch n => exact (outside_watchCancellation n _ rfl).mono fun _ _ hy ↦ ⟨hy, nofun⟩

theorem sessions_owned {a : Adapter} {calls : Nat → Call} {trace : List (Label sig Tid)}
    {c : Config sig State Returns} (h : Run machine (start a calls) trace c) :
    Slot.Owned sessions (closes calls) trace c :=
  sessions.owned (start_conforms a calls) rfl (fun _ _ _ hcloser hy ↦ ⟨hy.2 hcloser, hy.1⟩) h

end GoFilesystem.Ftp
