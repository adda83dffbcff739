import GoFilesystem.Conc.Recovery
import GoFilesystem.Remote.Sessions

/-!
# What becomes of a dead session

`withSession` with `retry` gives up a session whose connection is lost and goes on with
a new one.  What a goroutine knows of a dead session is said here for the functions that
the adapters share, if an adapter reads the shared commands as events of the sessions
(`Client.Traced`).
-/

namespace GoFilesystem.Remote

open Go Conc Recovery

namespace Client

variable {S : Sig} {Tid St : Type} {M : Machine S Tid St}

/-- What a command means for the sessions, if one of them has died. -/
def sessionEvent (C : Client S) : (c : Cmd) → c.Resp → Recovery.Event
  | .ctxErr _, (r : Option CtxErr) => if r.isSome then .refuse else .other
  | c, r => .ofSlot (C.event c r)

/-- The adapter reads the commands as events of the sessions, and reading a directory is
work on one. -/
structure Traced (C : Client S) (R : Reading M) : Prop where
  event_eq : ∀ c r, R.event (C.cmd c) r = C.sessionEvent c (C.resp c r)
  readDir : ∀ d k ctx session name, R.Tracks d (C.readDir ctx session name) k fun r k' ↦
    k.Worked C.isConnectionError d session r k'

namespace Traced

variable {C : Client S} {R : Reading M} (h : C.Traced R) {d : Nat} {k : Know} {α : Type}
  {operation : Session → Prog S (Except Err α)}
include h

/-! ## Commands -/

section Commands

variable {c : Cmd} {f : c.Resp → Prog S α} {Q : α → Know → Prop}

theorem other (hc : ∀ r, C.sessionEvent c r = .other) (hf : ∀ r, R.Tracks d (f r) k Q) :
    R.Tracks d (C.perform c >>= f) k Q :=
  Reading.Tracks.other (fun r ↦ (h.event_eq c r).trans (hc _)) fun r ↦ hf (C.resp c r)

theorem ask {e : c.Resp → Bool} (hc : ∀ r, C.sessionEvent c r = if e r then .refuse else .other)
    (hf : ∀ r, e r = false → R.Tracks d (f r) k Q) : R.Tracks d (C.perform c >>= f) k Q :=
  Reading.Tracks.ask (fun r ↦ (h.event_eq c r).trans (hc _)) fun r ↦ hf (C.resp c r)

theorem look {e : c.Resp → Option Nat} (hc : ∀ r, C.sessionEvent c r = .look (e r))
    (hf : ∀ r k', (e r ≠ some d ∧ k' = { k with gone := true }) ∨
      (e r = some d ∧ (k.sure || k.gone) = false ∧ k' = k) → R.Tracks d (f r) k' Q) :
    R.Tracks d (C.perform c >>= f) k Q :=
  Reading.Tracks.look (fun r ↦ (h.event_eq c r).trans (hc _)) fun r ↦ hf (C.resp c r)

theorem put {current : Option Nat} (hc : ∀ r, C.sessionEvent c r = .put current)
    (hcurrent : current ≠ some d) (hf : ∀ r, R.Tracks d (f r) { k with gone := true } Q) :
    R.Tracks d (C.perform c >>= f) k Q :=
  Reading.Tracks.put (fun r ↦ (h.event_eq c r).trans (hc _)) hcurrent fun r ↦ hf (C.resp c r)

theorem make {e : c.Resp → Option Nat} (hc : ∀ r, C.sessionEvent c r = .make (e r))
    (hf : ∀ r, e r ≠ none → e r ≠ some d → R.Tracks d (f r) k Q) :
    R.Tracks d (C.perform c >>= f) k Q :=
  Reading.Tracks.make (fun r ↦ (h.event_eq c r).trans (hc _)) fun r ↦ hf (C.resp c r)

theorem use {j : Nat} {e : c.Resp → Bool} (hc : ∀ r, C.sessionEvent c r = .use j (e r))
    (hf : ∀ r, e r = decide (j = d) → R.Tracks d (f r) { k with used := some j } Q) :
    R.Tracks d (C.perform c >>= f) k Q :=
  Reading.Tracks.use (fun r ↦ (h.event_eq c r).trans (hc _)) fun r ↦ hf (C.resp c r)

end Commands

/-! ## The session -/

theorem currentSession_tracks (ctx : Ctx) :
    R.Tracks d (C.currentSession ctx) k fun r k' ↦
      ∃ session, r = .ok session ∧ k.Acquired d session k' := by
  refine h.ask (fun _ ↦ rfl) ?_
  rintro (_ | err) hr
  · refine h.other (fun _ ↦ rfl) fun _ ↦ h.ask (e := id) (fun _ ↦ rfl) ?_
    rintro (_ | _) hr
    · refine h.look (e := id) (fun _ ↦ rfl) ?_
      rintro (_ | session) k₁ hlook
      · obtain rfl : k₁ = _ := (hlook.resolve_right fun h ↦ nomatch h.1).2
        refine h.make (e := Except.toOption) (fun _ ↦ rfl) ?_
        rintro (err | session) hmade hfresh
        · exact absurd rfl hmade
        · refine h.put (fun _ ↦ rfl) hfresh fun _ ↦ h.other (fun _ ↦ rfl) fun _ ↦ .ret ?_
          exact ⟨session, rfl, rfl, rfl, fun heq ↦ absurd (congrArg some heq) hfresh, fun _ ↦ rfl⟩
      · refine h.other (fun _ ↦ rfl) fun _ ↦ .ret ⟨session, rfl, ?_⟩
        rcases hlook with ⟨hne, rfl⟩ | ⟨heq, hknows, rfl⟩
        · exact ⟨rfl, rfl, fun heq ↦ absurd (congrArg some heq) hne, fun _ ↦ rfl⟩
        · exact ⟨rfl, rfl, fun _ ↦ hknows, fun hne ↦ absurd (Option.some.inj heq) hne⟩
    · exact nomatch hr
  · exact nomatch hr

/-- A goroutine that gives up the dead session, or knows that it is gone. -/
theorem invalidate_tracks {failed : Session} (hfailed : failed = d ∨ k.gone = true) :
    R.Tracks d (C.invalidate failed) k fun _ k' ↦
      k'.sure = k.sure ∧ k'.used = k.used ∧ k'.gone = true := by
  have hunlock {k₁ : Know} {Q : Unit → Know → Prop} (hq : Q () k₁) :
      R.Tracks d (C.perform .unlock) k₁ Q :=
    h.other (c := .unlock) (f := Prog.ret) (fun _ ↦ rfl) fun _ ↦ .ret hq
  refine h.other (fun _ ↦ rfl) fun _ ↦ h.look (e := id) (fun _ ↦ rfl) fun session k₁ hlook ↦ ?_
  split
  · refine h.other (fun _ ↦ rfl) fun _ ↦ h.put (fun _ ↦ rfl) (Option.some_ne_none d).symm fun _ ↦
      hunlock ?_
    rcases hlook with ⟨-, rfl⟩ | ⟨-, -, rfl⟩
    · exact ⟨rfl, rfl, rfl⟩
    · exact ⟨rfl, rfl, rfl⟩
  · rename_i hsession
    refine hunlock ?_
    rcases hlook with ⟨-, rfl⟩ | ⟨heq, hknows, rfl⟩
    · exact ⟨rfl, rfl, rfl⟩
    · rcases hfailed with rfl | hgone
      · exact absurd heq hsession
      · rw [hgone, Bool.or_true] at hknows
        exact nomatch hknows

/-- With `retry`, the result comes from a session that is not dead. -/
theorem withSession_recovers (ctx : Ctx) {P : Session → Except Err α → Prop}
    (hoperation : ∀ session k, R.Tracks d (operation session) k fun r k' ↦
      k.Worked C.isConnectionError d session r k' ∧ P session r) :
    R.Tracks d (C.withSession ctx true operation) k fun r k' ↦
      k.Recovered d k' ∧ ∃ session ≠ d, P session r := by
  refine (h.currentSession_tracks ctx).bind ?_
  rintro _ k₁ ⟨session, rfl, hk₁⟩
  refine (hoperation session k₁).bind ?_
  rintro (err | result) k₂ ⟨hk₂, hgood⟩
  · dsimp only
    split
    · refine (h.invalidate_tracks (hk₁.gone_or hk₂)).bind ?_
      rintro _ k₃ ⟨hsure₃, -, hgone₃⟩
      refine (h.currentSession_tracks ctx).bind ?_
      rintro _ k₄ ⟨session', rfl, hk₄⟩
      have hne : session' ≠ d := hk₄.ne (by rw [hgone₃, Bool.or_true])
      refine (hoperation session' k₄).mono fun r k₅ hk₅ ↦ ⟨?_, session', hne, hk₅.2⟩
      exact (hk₄.recovered hk₅.1 hne).of_sure (hsure₃.trans (hk₂.sure.trans hk₁.sure))
    · rename_i hretry
      have hne := hk₂.ne_of_error (Bool.not_eq_true _ ▸ hretry)
      exact .ret ⟨hk₁.recovered hk₂ hne, session, hne, hgood⟩
  · exact .ret ⟨hk₁.recovered hk₂ hk₂.ne_of_ok, session, hk₂.ne_of_ok, hgood⟩

theorem withSession_recovered (ctx : Ctx)
    (hoperation : ∀ session k, R.Tracks d (operation session) k fun r k' ↦
      k.Worked C.isConnectionError d session r k') :
    R.Tracks d (C.withSession ctx true operation) k fun _ k' ↦ k.Recovered d k' := by
  refine (h.withSession_recovers (P := fun _ _ ↦ True) ctx fun session k ↦ ?_).mono fun _ _ h ↦ h.1
  exact (hoperation session k).mono fun _ _ h ↦ ⟨h, trivial⟩

/-- Work on the session of the adapter. -/
theorem careful_of_keeps (ctx : Ctx) {f : Except Err Session → Prog S α}
    (hf : ∀ session, R.Keeps d session (f (.ok session))) :
    R.Tracks d (C.currentSession ctx >>= f) k fun _ k' ↦ k.Careful d k' := by
  refine (h.currentSession_tracks ctx).bind ?_
  rintro _ k₁ ⟨session, rfl, hk₁⟩
  exact (hf session k₁).mono fun _ _ hk' ↦ hk₁.careful hk'

/-- Without `retry`, the operation is made once, on the session that there is. -/
theorem withSession_careful (ctx : Ctx)
    (hoperation : ∀ session, R.Keeps d session (operation session)) :
    R.Tracks d (C.withSession ctx false operation) k fun _ k' ↦ k.Careful d k' := by
  refine h.careful_of_keeps ctx fun session ↦ (hoperation session).bind ?_
  rintro (err | result)
  · exact .ret _
  · exact .ret _

/-- `Close` uses no session. -/
theorem close_tracks :
    R.Tracks d C.close k fun _ k' ↦ k'.sure = k.sure ∧ k'.used = k.used := by
  refine Reading.tracks_idle (C.close_within fun c hc hstore r ↦ ?_)
  rw [h.event_eq]
  generalize C.resp c r = r
  cases c with
  | ctxErr ctx => obtain _ | err := r <;> trivial
  | loadClosed => obtain _ | _ := r <;> trivial
  | storeSession session =>
      cases session with
      | none => exact (Option.some_ne_none d).symm
      | some session => exact absurd rfl (hstore session)
  | lstat | stat => exact nomatch hc
  | _ => trivial

/-! ## Operations -/

theorem rejectLinks_tracks (session : Session) (candidates : List Str) :
    R.Tracks d (C.rejectLinks session candidates) k fun r k' ↦
      k.Tried C.isConnectionError d session r k' := by
  induction candidates generalizing k with
  | nil => exact .ret (.refl k)
  | cons candidate candidates ih =>
      refine h.use (fun _ ↦ rfl) ?_
      rintro (err | child) hfailed
      · dsimp only
        split
        · exact .ret k.tried_none
        · exact .ret (k.tried_some fun hd ↦ hfailed.trans (decide_eq_true hd))
      · dsimp only
        split
        · exact .ret (k.tried_some fun hd ↦ absurd hd (of_decide_eq_false hfailed.symm))
        · exact ih.mono fun _ _ h ↦ h.of_use

theorem rejectLinks_keeps (session : Session) (candidates : List Str) :
    R.Keeps d session (C.rejectLinks session candidates) :=
  fun _ ↦ (h.rejectLinks_tracks session candidates).mono fun _ _ h ↦ h.toStays

theorem checkedStat_tracks (root : Str) (path : Path) (session : Session) :
    R.Tracks d (C.checkedStat root path session) k fun r k' ↦
      k.Worked C.isConnectionError d session r k' := by
  refine (h.rejectLinks_tracks session _).bind ?_
  rintro (_ | err) k₁ hk₁
  · refine h.use (c := .stat session (remoteName root path)) (f := Prog.ret) (fun _ ↦ rfl) ?_
    refine fun r hfailed ↦ .ret ⟨hk₁.sure, hk₁.gone, rfl, fun hd ↦ ?_⟩
    have hbroken := hfailed.trans (decide_eq_true hd)
    cases r with
    | error err => exact ⟨err, rfl, hbroken⟩
    | ok child => contradiction
  · exact .ret hk₁.worked

theorem listNext_tracks (root : Str) (ctx : Ctx) (session : Session) (recursive : Bool)
    (limit : Int) (i : List Path × List Entry)
    (hi : i.1 ≠ [] ∨ k.used = some session ∧ session ≠ d) :
    R.Tracks d (C.listNext root ctx session recursive limit i) k (Sum.elim
      (fun _ k' ↦ k'.sure = k.sure ∧ k'.gone = k.gone ∧ k'.used = some session ∧ session ≠ d)
      fun r k' ↦ k.Worked C.isConnectionError d session r k') := by
  obtain ⟨_ | ⟨current, queue⟩, entries⟩ := i
  · obtain ⟨hused, hne⟩ := hi.resolve_left fun h ↦ h rfl
    exact .ret ⟨rfl, rfl, hused, fun hd ↦ absurd hd hne⟩
  refine (h.readDir d k ctx session _).bind ?_
  rintro (err | children) k₁ hk₁
  · exact .ret ⟨hk₁.sure, hk₁.gone, hk₁.used, fun hd ↦ (hk₁.dead hd).imp fun _ h ↦
      ⟨congrArg Except.error (Except.error.inj h.1), h.2⟩⟩
  · have hne := hk₁.ne_of_ok
    refine .ret ?_
    rcases visitDirectory .. with next | result
    · exact ⟨hk₁.sure, hk₁.gone, hk₁.used, hne⟩
    · exact ⟨hk₁.sure, hk₁.gone, hk₁.used, fun hd ↦ absurd hd hne⟩

theorem listTree_tracks (root : Str) (ctx : Ctx) (directory : Path) (recursive : Bool)
    (limit : Int) (session : Session) :
    R.Tracks d (C.listTree root ctx directory recursive limit session) k fun r k' ↦
      k.Worked C.isConnectionError d session r k' := by
  have hdenied : R.Tracks d (if directory.isRoot then pure none
      else C.rejectLinks session (linkCandidates root directory true)) k fun r k' ↦
        k.Tried C.isConnectionError d session r k' := by
    split
    · exact .ret (.refl k)
    · exact h.rejectLinks_tracks session _
  refine hdenied.bind ?_
  rintro (_ | err) k₁ hk₁
  · refine .loop (fun i k' ↦ k'.sure = k.sure ∧ k'.gone = k.gone ∧
      (i.1 ≠ [] ∨ k'.used = some session ∧ session ≠ d)) ⟨hk₁.sure, hk₁.gone, .inl nofun⟩ ?_
    rintro i k₂ ⟨hsure, hgone, hi⟩
    refine (h.listNext_tracks root ctx session recursive limit i hi).mono ?_
    rintro (i' | r) k₃ hk₃
    · exact ⟨hk₃.1.trans hsure, hk₃.2.1.trans hgone, .inr hk₃.2.2⟩
    · exact ⟨hk₃.sure.trans hsure, hk₃.gone.trans hgone, hk₃.used, hk₃.dead⟩
  · exact .ret hk₁.worked

/-! ## Meeting a dead session -/

section Meeting

variable (x : C.Runs M) {t : Tid} {s : St} {s₀ s₁ : State Tid} {used : Option Nat}
include x

/-- A command by a goroutine on its own. -/
theorem eval_step {w : St × Option Nat} {a : α} (c : Cmd) (r : c.Resp) {f : c.Resp → Prog S α}
    (happly : apply t c r s₀ = some s₁) (hsupposed : (C.sessionEvent c r).Supposed d)
    (heval : Eval (M.beside t (R.lost d)) (f r)
      (x.put s s₁, (C.sessionEvent c r).resource.or used) a w) :
    Eval (M.beside t (R.lost d)) (C.perform c >>= f) (x.put s s₀, used) a w := by
  have hr : C.resp c ((C.resp c).symm r) = r := (C.resp c).apply_symm_apply r
  have happly' : M.apply t (C.cmd c) ((C.resp c).symm r) (x.put s s₀) = some (x.put s s₁) := by
    rw [x.apply_eq, hr, x.base_put, happly, Option.map_some, x.put_put]
  refine R.eval_step (C.cmd c) ((C.resp c).symm r) happly' ?_ ?_
  · rwa [h.event_eq, hr]
  · change Eval _ (f (C.resp c ((C.resp c).symm r))) _ _ _
    rwa [h.event_eq, hr]

theorem eval_currentSession (ctx : Ctx) (hctx : (x.base s).ctx ctx = none)
    (hmu : (x.base s).mu = none) (hsession : (x.base s).session = some d)
    (hclosed : (x.base s).closed = false) :
    Eval (M.beside t (R.lost d)) (C.currentSession ctx) (s, used) (.ok d) (s, used) := by
  rw [← x.put_base s]
  generalize x.base s = s₀ at hctx hmu hsession hclosed ⊢
  obtain ⟨ctx', mu, session, closed, dialed⟩ := s₀
  dsimp only at hctx hmu hsession hclosed
  subst hmu hsession hclosed
  refine h.eval_step x (.ctxErr ctx) none (if_pos hctx.symm) trivial ?_
  refine h.eval_step x .lock () rfl trivial ?_
  refine h.eval_step x .loadClosed false rfl trivial ?_
  refine h.eval_step x .loadSession (some d) (if_pos rfl) trivial ?_
  exact h.eval_step x .unlock () rfl trivial .ret

/-- The first name at which a link is looked for. -/
theorem eval_rejectLinks {err : Err} (hbroken : C.isConnectionError err = true)
    (hfound : C.isNotFound err = false) (candidate : Str) (candidates : List Str) :
    Eval (M.beside t (R.lost d)) (C.rejectLinks d (candidate :: candidates)) (s, used) (some err)
      (s, some d) := by
  rw [← x.put_base s]
  refine h.eval_step x (.lstat d candidate) (.error err) rfl ?_ ?_
  · exact hbroken.trans (decide_eq_true rfl).symm
  · dsimp only
    rw [hfound]
    exact .ret

end Meeting

end Traced

end Client

end GoFilesystem.Remote
