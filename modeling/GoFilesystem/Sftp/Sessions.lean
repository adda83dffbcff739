import GoFilesystem.Remote.Sessions
import GoFilesystem.Sftp.Machine

/-!
# The session of the SFTP adapter

The commands of the adapter as events of the slot that holds the session.  Calls on a
file are calls on the session that opened it only where the adapter acts on their
error, which is the `Seek` of `OpenRange`.
-/

namespace GoFilesystem.Sftp

open Go Conc Slot

def event : (c : Cmd) → c.Resp → Slot.Event
  | .lock, _ => .lock
  | .unlock, _ => .unlock
  | .loadClosed, (r : Bool) => .loadShut r
  | .storeClosed, _ => .storeShut
  | .loadSession, (r : Option Session) => .load r
  | .storeSession session, _ => .store session
  | .connect _, (r : Except Err Session) => .make r.toOption
  | .closeSession session, _ => .release session
  | .openFile session _, (r : Except Err Nat) | .create session _, (r : Except Err Nat) =>
    .use session ((failure r).any isConnectionError)
  | .stat session _, (r : Except Err Info) | .lstat session _, (r : Except Err Info) =>
    .use session ((failure r).any isConnectionError)
  | .readDir session _ _, (r : Except Err (List Info)) =>
    .use session ((failure r).any isConnectionError)
  | .remove session _, (r : Option Err) | .mkdirAll session _, (r : Option Err)
  | .rename session _ _, (r : Option Err) | .posixRename session _ _, (r : Option Err) =>
    .use session (r.any isConnectionError)
  | .seek file _, (r : Option Err) => .use file.session (r.any isConnectionError)
  | _, _ => .other

def sessions : Guards machine where
  event := event
  view s := ⟨s.mu, s.session, s.closed, s.dialed⟩
  act_of_apply t c r s s' h := by
    have happly : apply t c r s = some s' := h
    cases c with
    | lock =>
        obtain ⟨hfree, rfl⟩ := of_ite_some happly
        exact if_pos (Option.isNone_iff_eq_none.mpr hfree)
    | unlock =>
        obtain ⟨hheld, rfl⟩ := of_ite_some happly
        exact if_pos (Option.isSome_iff_ne_none.mpr hheld)
    | loadClosed | loadSession =>
        obtain ⟨hr, rfl⟩ := of_ite_some happly
        exact if_pos hr
    | connect ctx =>
        cases r with
        | error err =>
            cases happly
            rfl
        | ok session =>
            obtain ⟨hr, rfl⟩ := of_ite_some happly
            exact if_pos hr
    | ctxErr | ctxDone | readFile | beginWatch | useStream | select | loadCloseErr =>
        obtain ⟨-, rfl⟩ := of_ite_some happly
        rfl
    | start n ctx file limit =>
        obtain ⟨-, rfl⟩ := of_ite_none happly
        rfl
    | onceDo n =>
        cases honce : (s.streams n).once <;> cases r <;> simp [apply, honce] at happly <;>
          subst happly <;> rfl
    | _ =>
        cases happly
        rfl

variable {x : Slot.Local} {a : Adapter} {source : Prog sig (Str × Option Err)}

theorem guarded : client.Guarded sessions where
  event_eq c _ := by cases c <;> rfl
  readDir _ _ _ := .command fun _ ↦ rfl
  linkIsDenied _ := rfl
  path _ := rfl

theorem uses_rejectSymlinks (session : Session) (path : Path) (includeFinal : Bool) :
    sessions.Uses isConnectionError session id (rejectSymlinks a session path includeFinal) :=
  guarded.uses_rejectLinks session _

/-! ## Streams -/

variable (n : StreamId) (ctx : Ctx) (path : Path)

theorem outside_contextRead {read : Prog sig (Str × Option Err)} (h : sessions.Outside read) :
    sessions.Outside (contextRead ctx read) := by
  refine .step (fun _ ↦ trivial) ?_
  rintro (_ | _)
  · exact h
  · exact .step (fun _ ↦ trivial) fun _ ↦ .ret _

theorem outside_read : sessions.Outside (read n) := by
  refine .step (fun _ ↦ trivial) fun ⟨ctx, file, limit⟩ ↦ ?_
  dsimp only
  split
  · exact .ret _
  · exact outside_contextRead ctx
      (.step (fun _ ↦ trivial) fun _ ↦ .step (fun _ ↦ trivial) fun _ ↦ .ret _)

theorem outside_closeStream : sessions.Outside (closeStream n) := by
  refine .step (fun _ ↦ trivial) fun ⟨ctx, file, limit⟩ ↦ .step (fun _ ↦ trivial) ?_
  rintro (_ | _)
  · exact .command fun _ ↦ trivial
  · exact .step (fun _ ↦ trivial) fun _ ↦ .step (fun _ ↦ trivial) fun _ ↦
      .step (fun _ ↦ trivial) fun _ ↦ .step (fun _ ↦ trivial) fun _ ↦ .command fun _ ↦ trivial

theorem outside_watch : sessions.Outside (watch n) := by
  refine .step (fun _ ↦ trivial) fun ctx ↦ .step (fun _ ↦ trivial) ?_
  rintro (_ | _)
  · exact .ret _
  · exact (outside_closeStream n).bind fun _ ↦ .ret _

/-! ## Operations on a session -/

theorem openFile_follows (session : Session) (hx : x.phase = .outside) :
    sessions.usage.Follows (openFile a path session) x fun r y ↦
      Reports isConnectionError session (failure r) y ∧
        ∀ file, r = .ok file → file.session = session := by
  refine (uses_rejectSymlinks session path true x hx).bind ?_
  rintro (_ | err) y hy
  · refine Usage.Follows.bind (Guards.Uses.command (e := failure) (fun _ ↦ rfl) y hy.1) ?_
    rintro (err | handle) y hy
    · exact ⟨hy, nofun⟩
    · exact ⟨⟨hy.1, nofun⟩, fun file heq ↦ Except.ok.inj heq ▸ rfl⟩
  · exact ⟨hy, nofun⟩

theorem uses_openFileAt (offset : Int) (session : Session) :
    sessions.Uses isConnectionError session failure (openFileAt a path offset session) := by
  refine fun x hx ↦ (openFile_follows path session hx).bind ?_
  rintro (err | opened) y ⟨hy, hsession⟩
  · exact hy
  · obtain rfl := hsession opened rfl
    refine Usage.Follows.bind (Guards.Uses.command (e := id) (fun _ ↦ rfl) y hy.1) ?_
    rintro (_ | err) y hy
    · exact ⟨hy.1, nofun⟩
    · exact sessions.follows_step hy.1 fun _ ↦ ⟨_, .other, rfl, hy.2⟩

theorem outside_copyNext (file : File) (hsource : sessions.Outside source) :
    sessions.Outside (copyNext ctx file source) := by
  refine (outside_contextRead ctx hsource).bind fun ⟨data, readErr⟩ ↦
    .check ?_ (fun _ ↦ .ret _) ?_
  · unfold writeFile
    split
    · exact .ret _
    · refine .step (fun _ ↦ trivial) ?_
      rintro ⟨written, _ | err⟩
      · exact .ret _
      · exact .ret _
  · cases readErr with
    | none => exact .ret _
    | some err => exact .ret _

theorem outside_cleanup (file : File) (temporary : Str) (err : Err) :
    sessions.Outside (cleanup file temporary err) :=
  .step (fun _ ↦ trivial) fun _ ↦ .step (fun _ ↦ trivial) fun _ ↦ .ret _

theorem outside_upload (session : Session) (path : Path) (temporary : Str)
    (hsource : sessions.Outside source) :
    sessions.Outside (upload a ctx session path temporary source) := by
  refine .get (.command fun _ ↦ trivial) (fun _ ↦ .ret _) fun handle ↦ ?_
  refine .check (.loop (fun _ ↦ outside_copyNext ctx _ hsource) ())
    (outside_cleanup _ temporary) ?_
  refine .check (.command fun _ ↦ trivial) (fun err ↦ outside_cleanup _ temporary err.err) ?_
  refine .step (fun _ ↦ trivial) fun synced ↦ ?_
  split
  · exact outside_cleanup _ _ _
  refine .check (.command fun _ ↦ trivial) (fun _ ↦ .step (fun _ ↦ trivial) fun _ ↦ .ret _) ?_
  refine .check ?_ (fun _ ↦ .step (fun _ ↦ trivial) fun _ ↦ .ret _) (.ret _)
  unfold publish
  split
  · exact .command fun _ ↦ trivial
  · exact .command fun _ ↦ trivial

/-! ## Calls -/

theorem outside_stat : sessions.Outside (stat a ctx path) :=
  .get (guarded.outside_withSession ctx true (guarded.uses_checkedStat a.root path))
    (fun _ ↦ .ret _) fun _ ↦ .ret _

theorem outside_openStream : sessions.Outside (openStream a n ctx path) := by
  refine .get (guarded.outside_withSession ctx true fun session x hx ↦ ?_) (fun _ ↦ .ret _)
    fun _ ↦ .step (fun _ ↦ trivial) fun _ ↦ .ret _
  exact (openFile_follows path session hx).mono fun _ _ h ↦ h.1

theorem outside_openRange (byteRange : ByteRange) :
    sessions.Outside (openRange a n ctx path byteRange) := by
  unfold openRange
  split
  · exact .ret _
  · exact .get (guarded.outside_withSession ctx true (uses_openFileAt path byteRange.offset))
      (fun _ ↦ .ret _) fun _ ↦ .step (fun _ ↦ trivial) fun _ ↦ .ret _

theorem outside_writeFrom (hsource : sessions.Outside source) (options : WriteOptions) :
    sessions.Outside (writeFrom a ctx path source options) := by
  unfold writeFrom
  split
  · exact .ret _
  split
  · exact .ret _
  refine .get (guarded.outside_currentSession ctx) (fun _ ↦ .ret _) fun session ↦ ?_
  refine .check (uses_rejectSymlinks session path false).outside (fun _ ↦ .ret _) ?_
  refine .step (fun _ ↦ trivial) fun found ↦ ?_
  dsimp only
  split
  · exact .ret _
  refine .check (.command fun _ ↦ trivial) (fun _ ↦ .ret _) ?_
  refine .get (.command fun _ ↦ trivial) (fun _ ↦ .ret _) fun random ↦ ?_
  exact .get (outside_upload ctx session path _ hsource) (fun _ ↦ .ret _) fun _ ↦
    outside_stat ctx path

theorem outside_delete : sessions.Outside (delete a ctx path) :=
  .get (guarded.outside_currentSession ctx) (fun _ ↦ .ret _) fun session ↦
    .check (uses_rejectSymlinks session path true).outside (fun _ ↦ .ret _)
      (.check (.command fun _ ↦ trivial) (fun _ ↦ .ret _) (.ret _))

theorem outside_list (directory : Path) (options : ListOptions) :
    sessions.Outside (list a ctx directory options) := by
  unfold list
  split
  · exact .ret _
  · exact .get (guarded.outside_withSession ctx true
      (guarded.uses_listTree a.root ctx directory options.recursive _))
      (fun _ ↦ .ret _) fun _ ↦ .ret _

theorem outside_copy (source destination : Path) (options : OverwriteOptions) :
    sessions.Outside (copy a n ctx source destination options) := by
  unfold copy
  split
  · exact .ret _
  refine .check (outside_openStream n ctx source) (fun _ ↦ .ret _) ?_
  refine (outside_writeFrom ctx destination (outside_read n) {}).bind fun result ↦
    (outside_closeStream n).bind fun _ ↦ ?_
  cases result with
  | error err => exact .ret _
  | ok metadata => exact .ret _

theorem outside_move (source destination : Path) (options : OverwriteOptions) :
    sessions.Outside (move a ctx source destination options) := by
  unfold move
  split
  · exact .ret _
  refine .get (guarded.outside_currentSession ctx) (fun _ ↦ .ret _) fun session ↦ ?_
  refine .check (uses_rejectSymlinks session source true).outside (fun _ ↦ .ret _) ?_
  refine .check (uses_rejectSymlinks session destination false).outside (fun _ ↦ .ret _) ?_
  refine .check (.command fun _ ↦ trivial) (fun _ ↦ .ret _) ?_
  exact .check (.command fun _ ↦ trivial) (fun _ ↦ .ret _) (.ret _)

theorem outside_checksum (hashes : Hashes) (n : StreamId) (ctx : Ctx) (path : Path)
    (algorithm : ChecksumAlgorithm) :
    sessions.Outside (checksum a hashes n ctx path algorithm) := by
  refine .check (outside_openStream n ctx path) (fun _ ↦ .ret _) ?_
  dsimp only
  split
  · exact (outside_closeStream n).bind fun _ ↦ .ret _
  · refine .bind (.loop (fun content ↦ (outside_read n).bind ?_) []) fun content ↦
      (outside_closeStream n).bind fun _ ↦ ?_
    · rintro ⟨data, _ | err⟩
      · exact .ret _
      · exact .ret _
    · cases content with
      | error err => exact .ret _
      | ok content => exact .ret _

/-! ## Runs -/

/-- Whether a call is one of `Close`. -/
def Call.closes : Call → Bool
  | .close => true
  | _ => false

def closes (calls : Nat → Call) : Tid → Bool
  | .call n => (calls n).closes
  | _ => false

theorem Call.run_follows (n : Nat) (call : Call) (hx : x.phase = .outside)
    (hcloser : x.closer = call.closes) :
    sessions.usage.Follows (call.run a n) x fun _ y ↦
      y.phase = .outside ∧ (call.closes = true → y.shut = true) := by
  have hother {α : Type} {p : Prog sig α} (h : sessions.Outside p) (f : α → Outcome) :
      sessions.usage.Follows (f <$> p) x fun _ y ↦
        y.phase = .outside ∧ (false = true → y.shut = true) :=
    (h x hx).bind fun _ _ hy ↦ ⟨hy, nofun⟩
  cases call with
  | close => exact (guarded.close_follows hx hcloser).bind fun _ _ hy ↦ ⟨hy.1, fun _ ↦ hy.2⟩
  | openStream ctx path => exact hother (outside_openStream n ctx path) _
  | openRange ctx path byteRange => exact hother (outside_openRange n ctx path byteRange) _
  | read stream => exact hother (outside_read stream) _
  | closeStream stream => exact hother (outside_closeStream stream) _
  | write ctx path options =>
      have hsource : sessions.Outside (perform .source) := .command fun _ ↦ trivial
      exact hother (outside_writeFrom ctx path hsource options) _
  | delete ctx path => exact hother (outside_delete ctx path) _
  | stat ctx path => exact hother (outside_stat ctx path) _
  | list ctx directory options => exact hother (outside_list ctx directory options) _
  | copy ctx source destination options =>
      exact hother (outside_copy n ctx source destination options) _
  | move ctx source destination options =>
      exact hother (outside_move ctx source destination options) _
  | checksum hashes ctx path algorithm =>
      exact hother (outside_checksum hashes n ctx path algorithm) _
  | cancel ctx err => exact hother (p := perform (.cancel ctx err)) (.command fun _ ↦ trivial) _

theorem start_conforms (a : Adapter) (calls : Nat → Call) :
    Conforms sessions.usage
      (fun t _ y ↦ y.phase = .outside ∧ (closes calls t = true → y.shut = true)) (start a calls)
      fun t ↦ { closer := closes calls t } := by
  intro t
  cases t with
  | call n => exact (calls n).run_follows n rfl rfl
  | watch n => exact (outside_watch n _ rfl).mono fun _ _ hy ↦ ⟨hy, nofun⟩

theorem sessions_owned {a : Adapter} {calls : Nat → Call} {trace : List (Label sig Tid)}
    {c : Config sig State Returns} (h : Run machine (start a calls) trace c) :
    Owned sessions (closes calls) trace c :=
  sessions.owned (start_conforms a calls) rfl (fun _ _ _ hcloser hy ↦ ⟨hy.2 hcloser, hy.1⟩) h

end GoFilesystem.Sftp
