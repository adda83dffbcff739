import GoFilesystem.Conc.Guards
import GoFilesystem.Remote.Session

/-!
# The session of an adapter for a server

`a.session` is a slot that `mu` guards: the connector makes what it holds, `Quit` or
`Close` of a session releases it, `Close` of the adapter shuts it, and a request that
fails with a connection error has found the session broken.  The functions that the
adapters share keep to the order of events of a slot, if an adapter reads the shared
commands as these events (`Client.Guarded`).  Between an operation that fails and
`invalidate` a goroutine uses no other session, so what it gives up is what failed.
-/

namespace GoFilesystem.Remote

open Go Conc Slot

/-! ## Which commands the functions issue -/

/-- The commands that see to the session: all but the requests. -/
def Cmd.upkeep : Cmd → Bool
  | .lstat _ _ | .stat _ _ => false
  | _ => true

namespace Client

variable {c : Cmd} {session : Session}

section Within

variable {S : Sig} {C : Client S} {P : S.Cmd → Prop} {α : Type}

theorem within_step {f : c.Resp → Prog S α} (h : P (C.cmd c)) (hf : ∀ r, (f r).Within P) :
    (C.perform c >>= f).Within P :=
  ⟨h, fun r ↦ hf (C.resp c r)⟩

theorem within_command (h : P (C.cmd c)) : (C.perform c).Within P := ⟨h, fun _ ↦ trivial⟩

theorem currentSession_within (h : ∀ c : Cmd, c.upkeep = true → P (C.cmd c)) (ctx : Ctx) :
    (C.currentSession ctx).Within P := by
  have hleave {α : Type} (result : α) : Prog.Within P (do
      C.perform .unlock
      return result) := within_step (h _ rfl) fun _ ↦ trivial
  refine .check (within_command (h _ rfl)) (fun _ ↦ trivial) (within_step (h _ rfl) fun _ ↦
    within_step (h _ rfl) ?_)
  rintro (_ | _)
  · refine within_step (h _ rfl) ?_
    rintro (_ | session)
    · exact .get (within_command (h _ rfl)) (fun _ ↦ hleave _)
        fun session ↦ within_step (h _ rfl) fun _ ↦ hleave _
    · exact hleave _
  · exact hleave _

theorem invalidate_within (h : ∀ c : Cmd, c.upkeep = true → P (C.cmd c)) (failed : Session) :
    (C.invalidate failed).Within P := by
  refine within_step (h _ rfl) fun _ ↦ within_step (h _ rfl) fun session ↦ ?_
  split
  · exact within_step (h _ rfl) fun _ ↦ within_step (h _ rfl) fun _ ↦ within_command (h _ rfl)
  · exact within_command (h _ rfl)

theorem withSession_within {operation : Session → Prog S (Except Err α)}
    (h : ∀ c : Cmd, c.upkeep = true → P (C.cmd c)) (ctx : Ctx) (retry : Bool)
    (hoperation : ∀ session, (operation session).Within P) :
    (C.withSession ctx retry operation).Within P := by
  refine .get (currentSession_within h ctx) (fun _ ↦ trivial) fun session ↦
    .get (hoperation session) (fun err ↦ ?_) fun _ ↦ trivial
  dsimp only
  split
  · exact (invalidate_within h session).bind fun _ ↦ .get (currentSession_within h ctx)
      (fun _ ↦ trivial) hoperation
  · trivial

/-- `Close` puts no session into the adapter. -/
theorem close_within (h : ∀ c : Cmd, c.upkeep = true →
    (∀ session, c ≠ .storeSession (some session)) → P (C.cmd c)) : C.close.Within P := by
  have hleave (result : Option Err) : Prog.Within P (do
      C.perform .unlock
      return result) := within_step (h _ rfl nofun) fun _ ↦ trivial
  refine within_step (h _ rfl nofun) fun _ ↦ within_step (h _ rfl nofun) ?_
  rintro (_ | _)
  · refine within_step (h _ rfl nofun) fun _ ↦ within_step (h _ rfl nofun) ?_
    rintro (_ | session)
    · exact hleave none
    · exact within_step (h _ rfl nofun) fun err ↦
        within_step (h _ rfl (by simp)) fun _ ↦ hleave err
  · exact hleave none

theorem rejectLinks_within (h : ∀ name, P (C.cmd (.lstat session name))) (candidates : List Str) :
    (C.rejectLinks session candidates).Within P := by
  induction candidates with
  | nil => trivial
  | cons candidate candidates ih =>
      refine .get (within_command (h candidate)) (fun _ ↦ trivial) fun child ↦ ?_
      dsimp only
      split
      · trivial
      · exact ih

theorem checkedStat_within (hlstat : ∀ name, P (C.cmd (.lstat session name)))
    (hstat : ∀ name, P (C.cmd (.stat session name))) (root : Str) (path : Path) :
    (C.checkedStat root path session).Within P :=
  .check (rejectLinks_within hlstat _) (fun _ ↦ trivial) (within_command (hstat _))

theorem listTree_within {ctx : Ctx} (hlstat : ∀ name, P (C.cmd (.lstat session name)))
    (hread : ∀ name, (C.readDir ctx session name).Within P) (root : Str) (directory : Path)
    (recursive : Bool) (limit : Int) :
    (C.listTree root ctx directory recursive limit session).Within P := by
  have hround : ∀ i, (C.listNext root ctx session recursive limit i).Within P := by
    rintro ⟨_ | ⟨current, queue⟩, entries⟩
    · trivial
    · exact .get (hread _) (fun _ ↦ trivial) fun _ ↦ trivial
  refine Prog.Within.bind ?_ ?_
  · split
    · trivial
    · exact rejectLinks_within hlstat _
  · rintro (_ | err)
    · exact .loop hround _
    · trivial

end Within

/-! ## The order of events -/

/-- What a command means for the slot. -/
def event {S : Sig} (C : Client S) : (c : Cmd) → c.Resp → Slot.Event
  | .lock, _ => .lock
  | .unlock, _ => .unlock
  | .loadClosed, (r : Bool) => .loadShut r
  | .storeClosed, _ => .storeShut
  | .loadSession, (r : Option Session) => .load r
  | .storeSession session, _ => .store session
  | .connect _, (r : Except Err Session) => .make r.toOption
  | .release session, _ => .release session
  | .lstat session _, (r : Except Err Child) | .stat session _, (r : Except Err Child) =>
    .use session ((failure r).any C.isConnectionError)
  | .ctxErr _, _ => .other

variable {S : Sig} {Tid St : Type} {M : Machine S Tid St}

/-- The adapter reads the commands as events of a slot, and what goes wrong with a
directory it has read is not the connection. -/
structure Guarded (C : Client S) (G : Guards M) : Prop where
  event_eq : ∀ c r, G.event (C.cmd c) r = C.event c (C.resp c r)
  readDir : ∀ ctx session name,
    G.Uses C.isConnectionError session failure (C.readDir ctx session name)
  linkIsDenied : ∀ name, C.isConnectionError (C.linkIsDenied name) = false
  path : ∀ err : PathError, C.isConnectionError err.err = false

namespace Guarded

variable {C : Client S} {G : Guards M} (h : C.Guarded G) {x : Slot.Local} {α : Type}
include h

theorem step {f : c.Resp → Prog S α} {Q : α → Slot.Local → Prop} {phase : Phase}
    (hx : x.phase = phase) (hf : ∀ r, ∃ p, Phase.Step x.closer x.used (C.event c r) phase p ∧
      G.usage.Follows (f r) (x.after (C.event c r) p) Q) :
    G.usage.Follows (C.perform c >>= f) x Q := by
  intro r
  obtain ⟨p, hstep, hfollows⟩ := hf (C.resp c r)
  exact ⟨_, ⟨p, h.event_eq c r ▸ hx ▸ hstep, rfl⟩, h.event_eq c r ▸ hfollows⟩

theorem command {Q : c.Resp → Slot.Local → Prop} {phase : Phase} (hx : x.phase = phase)
    (hq : ∀ r, ∃ p, Phase.Step x.closer x.used (C.event c r) phase p ∧
      Q r (x.after (C.event c r) p)) : G.usage.Follows (C.perform c) x Q :=
  h.step (f := Prog.ret) hx hq

/-- The end of a critical section. -/
theorem leave (hx : x.phase = .leaving) (result : α) :
    G.usage.Follows (do
      C.perform .unlock
      return result) x fun _ y ↦ y.phase = .outside ∧ y.shut = x.shut :=
  h.step hx fun _ ↦ ⟨_, .leave, rfl, Bool.or_false _⟩

theorem outside_currentSession (ctx : Ctx) : G.Outside (C.currentSession ctx) := by
  have hleave {α : Type} {y : Slot.Local} (hy : y.phase = .leaving) (result : α) :=
    (h.leave hy result).mono fun _ _ h ↦ h.1
  refine fun x hx ↦ h.step hx ?_
  rintro (_ | err)
  · refine ⟨_, .other, h.step rfl fun _ ↦ ⟨_, .lock, h.step rfl ?_⟩⟩
    rintro (_ | _)
    · refine ⟨_, .notShut, h.step rfl ?_⟩
      rintro (_ | session)
      · refine ⟨_, .absent, h.step rfl ?_⟩
        rintro (err | session)
        · exact ⟨_, .fail, hleave rfl _⟩
        · exact ⟨_, .make session, h.step rfl fun _ ↦ ⟨_, .fill session, hleave rfl _⟩⟩
      · exact ⟨_, .present session, hleave rfl _⟩
    · exact ⟨_, .isShut, hleave rfl _⟩
  · exact ⟨_, .other, rfl⟩

/-- A goroutine gives up the session that its latest request has found broken. -/
theorem discards_invalidate (failed : Session) : G.Discards failed (C.invalidate failed) := by
  have hunlock {y : Slot.Local} {phase : Phase} (hy : y.phase = phase)
      (hstep : Phase.Step y.closer y.used .unlock phase .outside) :
      G.usage.Follows (C.perform .unlock) y fun _ z ↦ z.phase = .outside :=
    h.command hy fun _ ↦ ⟨_, hstep, rfl⟩
  refine fun x hx hused ↦ h.step hx fun _ ↦ ⟨_, .lock, h.step rfl ?_⟩
  refine fun session ↦ ⟨_, .look session, ?_⟩
  split
  · rename_i hsession
    obtain rfl : session = some failed := hsession
    exact h.step rfl fun _ ↦ ⟨_, .discard failed hused, h.step rfl fun _ ↦ ⟨_, .clear failed,
      hunlock rfl .leave⟩⟩
  · exact hunlock rfl (.pass session)

theorem outside_withSession (ctx : Ctx) (retry : Bool)
    {operation : Session → Prog S (Except Err α)}
    (hoperation : ∀ session, G.Uses C.isConnectionError session failure (operation session)) :
    G.Outside (C.withSession ctx retry operation) := by
  refine .get (h.outside_currentSession ctx) (fun _ ↦ .ret _)
    fun session ↦ (hoperation session).handle ?_
  rintro (err | result)
  · dsimp only
    split
    · rename_i hretry
      refine .inr ⟨err, rfl, (Bool.and_eq_true_iff.mp hretry).2, ?_⟩
      exact (h.discards_invalidate session).bind fun _ ↦
        .get (h.outside_currentSession ctx) (fun _ ↦ .ret _) fun session ↦
          (hoperation session).outside
    · exact .inl (.ret _)
  · exact .inl (.ret _)

/-- When `Close` returns, the goroutine has seen the adapter closed. -/
theorem close_follows (hx : x.phase = .outside) (hcloser : x.closer = true) :
    G.usage.Follows C.close x fun _ y ↦ y.phase = .outside ∧ y.shut = true := by
  have hleave {y : Slot.Local} (result : Option Err) (hy : y.phase = .leaving)
      (hshut : y.shut = true) : G.usage.Follows (do
        C.perform .unlock
        return result) y fun _ y ↦ y.phase = .outside ∧ y.shut = true :=
    (h.leave hy result).mono fun _ _ hy ↦ ⟨hy.1, hy.2.trans hshut⟩
  refine h.step hx fun _ ↦ ⟨_, .lock, h.step rfl ?_⟩
  rintro (_ | _)
  · refine ⟨_, .notShut, h.step rfl fun _ ↦ ⟨_, .shut hcloser, h.step rfl ?_⟩⟩
    rintro (_ | session)
    · refine ⟨_, .empty, hleave none rfl ?_⟩
      simp [Slot.Local.after, event, Event.reportsShut]
    · refine ⟨_, .last session, h.step rfl fun err ↦ ⟨_, .dispose session hcloser,
        h.step rfl fun _ ↦ ⟨_, .clear session, hleave err rfl ?_⟩⟩⟩
      simp [Slot.Local.after, event, Event.reportsShut]
  · refine ⟨_, .isShut, hleave none rfl ?_⟩
    simp [Slot.Local.after, event, Event.reportsShut]

/-! ## Operations on a session -/

theorem uses_perform {e : c.Resp → Option Err}
    (he : ∀ r, C.event c r = .use session ((e r).any C.isConnectionError)) :
    G.Uses C.isConnectionError session e (C.perform c) := by
  refine fun x hx ↦ h.command hx fun r ↦ ⟨.outside, ?_, rfl, fun err herr hbroken ↦ ?_⟩
  · rw [he]
    exact .use _ _
  · rw [he, Option.mem_def.mp herr]
    exact congrArg (fun b ↦ some (session, b)) hbroken

theorem uses_rejectLinks (session : Session) (candidates : List Str) :
    G.Uses C.isConnectionError session id (C.rejectLinks session candidates) := by
  induction candidates with
  | nil => exact .ret rfl
  | cons candidate candidates ih =>
      refine .bind (e := failure) (h.uses_perform fun _ ↦ rfl) ?_
      rintro (err | child)
      · dsimp only
        split
        · exact .inl (.ret rfl)
        · exact .inr ⟨_, rfl, rfl⟩
      · dsimp only
        split
        · exact .inl (.ret (h.linkIsDenied _))
        · exact .inl ih

theorem uses_checkedStat (root : Str) (path : Path) (session : Session) :
    G.Uses C.isConnectionError session failure (C.checkedStat root path session) := by
  refine (h.uses_rejectLinks session _).bind ?_
  rintro (_ | err)
  · exact .inl (h.uses_perform fun _ ↦ rfl)
  · exact .inr ⟨_, rfl, rfl⟩

theorem uses_listNext (root : Str) (ctx : Ctx) (session : Session) (recursive : Bool)
    (limit : Int) (next : List Path × List Entry) :
    G.Uses C.isConnectionError session (Sum.elim (fun _ ↦ none) failure)
      (C.listNext root ctx session recursive limit next) := by
  obtain ⟨_ | ⟨current, queue⟩, entries⟩ := next
  · exact .ret rfl
  refine (h.readDir ctx session _).bind ?_
  rintro (err | children)
  · exact .inr ⟨_, rfl, rfl⟩
  refine .inl (.ret ?_)
  cases hvisit : visitDirectory C.linkIsDenied recursive limit current queue entries children with
  | inl next => rfl
  | inr result =>
      cases result with
      | ok entries => rfl
      | error err =>
          obtain ⟨child, -, ⟨-, rfl⟩ | ⟨e, -, rfl⟩⟩ := visitDirectory_eq_error hvisit
          · exact h.linkIsDenied child.name
          · exact h.path e

theorem uses_listTree (root : Str) (ctx : Ctx) (directory : Path) (recursive : Bool) (limit : Int)
    (session : Session) : G.Uses C.isConnectionError session failure
      (C.listTree root ctx directory recursive limit session) := by
  have hdenied : G.Uses C.isConnectionError session id (if directory.isRoot then pure none
      else C.rejectLinks session (linkCandidates root directory true)) := by
    split
    · exact .ret rfl
    · exact h.uses_rejectLinks session _
  refine hdenied.bind ?_
  rintro (_ | err)
  · exact .inl (.loop (h.uses_listNext root ctx session recursive limit) _)
  · exact .inr ⟨_, rfl, rfl⟩

end Guarded

end Client

end GoFilesystem.Remote
