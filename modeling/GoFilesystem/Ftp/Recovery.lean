import GoFilesystem.Ftp.Scope
import GoFilesystem.Ftp.Sessions
import GoFilesystem.Remote.Recovery

/-!
# What becomes of a dead session of the FTP adapter

`withLockedResult` with `retry`, and `Open`, give up a session whose connection is
lost and go on with a new one.  `Write` and `Delete` are not repeated, and they leave
the session where it is.
-/

namespace GoFilesystem.Ftp

open Go Conc Recovery

def sessionEvent : (c : Cmd) → c.Resp → Recovery.Event
  | .ctxErr _, (r : Option CtxErr) => if r.isSome then .refuse else .other
  | .ctxDone _, (r : Bool) => if r then .refuse else .other
  | .retrieve session _, _ => .touch session
  | .start _ session _ _, _ => .keep session
  | .beginTransfer _, (r : Session × Ctx × Path) => .find r.1
  | c, r => .ofSlot (event c r)

/-- The session of the adapter, and those of its streams. -/
def State.resources (s : State) : Recovery.Shared where
  slot := s.session
  made := s.dialed
  kept session := ∃ n, (s.streams n).started = true ∧ (s.streams n).session = session

theorem kept_modifyStream {s : State} {n : StreamId} {f : Stream → Stream}
    (hstarted : (f (s.streams n)).started = (s.streams n).started)
    (hsession : (f (s.streams n)).session = (s.streams n).session) :
    (s.modifyStream n f).resources.kept = s.resources.kept := by
  funext session
  refine propext (exists_congr fun m ↦ ?_)
  by_cases hm : m = n
  · rw [hm, streams_modifyStream_self, hstarted, hsession]
  · rw [streams_modifyStream_of_ne s hm]

def resources : Reading machine where
  event := sessionEvent
  view := State.resources
  acts t c r s s' h := by
    have happly : apply t c r s = some s' := h
    have hslot := sessions.act_of_apply t c r s s' h
    cases c with
    | ctxErr | ctxDone =>
        obtain ⟨-, rfl⟩ := of_ite_some happly
        exact .ask rfl
    | start n session ctx path =>
        obtain ⟨-, rfl⟩ := apply_start happly
        refine ⟨rfl, Nat.le_refl _, ?_, nofun, nofun, nofun⟩
        rintro k ⟨m, hstarted, hsession⟩
        by_cases hm : m = n
        · subst hm
          rw [streams_modifyStream_self] at hsession
          exact .inr (congrArg Recovery.Event.keep hsession)
        · rw [streams_modifyStream_of_ne s hm] at hstarted hsession
          exact .inl ⟨m, hstarted, hsession⟩
    | beginTransfer n =>
        obtain ⟨⟨hstarted, hr⟩, rfl⟩ := of_ite_some happly
        refine ⟨rfl, Nat.le_refl _, fun _ hk ↦ .inl hk, nofun, nofun, fun k hk ↦ ?_⟩
        cases hk
        exact ⟨n, hstarted, by rw [hr]⟩
    | retrieve session name =>
        cases happly
        refine ⟨rfl, Nat.le_refl _, fun k hk ↦ .inl ?_, nofun, nofun, nofun⟩
        rwa [kept_modifyStream rfl rfl] at hk
    | pipe n c =>
        obtain ⟨p, -, rfl⟩ := apply_pipe happly
        exact .ofSlot hslot (kept_modifyStream rfl rfl)
    | select n ctx =>
        rcases apply_select happly with ⟨-, rfl⟩ | ⟨-, rfl⟩
        · exact .ofSlot hslot (kept_modifyStream rfl rfl)
        · exact .ofSlot hslot (kept_modifyStream rfl rfl)
    | onceDo n =>
        rcases apply_onceDo happly with ⟨-, -, rfl⟩ | ⟨-, rfl⟩
        · exact .ofSlot hslot (kept_modifyStream rfl rfl)
        · exact .ofSlot hslot rfl
    | retrieving | endSelect | onceDone | closeDone =>
        cases happly
        exact .ofSlot hslot (kept_modifyStream rfl rfl)
    | opLock | opUnlock | lock | unlock | beginWatch | useStream | awaitDone | loadClosed
    | loadSession =>
        obtain ⟨-, rfl⟩ := of_ite_some happly
        exact .ofSlot hslot rfl
    | connect ctx =>
        cases r with
        | error err =>
            cases happly
            exact .ofSlot hslot rfl
        | ok session =>
            obtain ⟨-, rfl⟩ := of_ite_some happly
            exact .ofSlot hslot rfl
    | _ =>
        cases happly
        exact .ofSlot hslot rfl

variable {a : Adapter} {d : Nat} {k : Know} {session : Session}

theorem traced : client.Traced resources where
  event_eq c r := by cases c <;> rfl
  readDir d k ctx session name := by
    refine .ask (fun _ ↦ rfl) ?_
    rintro (_ | err) hr
    · refine Reading.tracks_use (fun _ ↦ rfl) fun r hfailed ↦ ⟨rfl, rfl, rfl, fun hd ↦ ?_⟩
      have hbroken := hfailed.trans (decide_eq_true hd)
      cases r with
      | error err => exact ⟨err, rfl, hbroken⟩
      | ok entries => contradiction
    · exact nomatch hr

/-! ## Operations that are repeated -/

theorem withLockedResult_recovers {α : Type} (ctx : Ctx)
    {operation : Session → Prog sig (Except Err α)}
    (h : ∀ session k, resources.Tracks d (operation session) k fun r k' ↦
      k.Worked isConnectionError d session r k') :
    resources.Tracks d (withLockedResult ctx true operation) k fun _ k' ↦ k.Recovered d k' :=
  .other (fun _ ↦ rfl) fun _ ↦ (traced.withSession_recovered ctx h).bind fun _ _ hk ↦
    .other (fun _ ↦ rfl) fun _ ↦ .ret hk

theorem stat_tracks (ctx : Ctx) (path : Path) :
    resources.Tracks d (stat a ctx path) k fun _ k' ↦ k.Recovered d k' := by
  refine (withLockedResult_recovers ctx fun session _ ↦
    traced.checkedStat_tracks a.root path session).bind ?_
  rintro (err | entry) k' hk'
  · exact .ret hk'
  · exact .ret hk'

theorem list_tracks (ctx : Ctx) (directory : Path) (options : ListOptions) :
    resources.Tracks d (list a ctx directory options) k fun _ k' ↦
      (options.limit < 0 ∧ k' = k) ∨ k.Recovered d k' := by
  unfold list
  split
  · rename_i hlimit
    exact .ret (.inl ⟨hlimit, rfl⟩)
  · refine (withLockedResult_recovers ctx fun session _ ↦
      traced.listTree_tracks a.root ctx directory options.recursive _ session).bind ?_
    rintro (err | entries) k' hk'
    · exact .ret (.inr hk')
    · exact .ret (.inr hk')

theorem prepareOpen_tracks {k₁ : Know} (ctx : Ctx) (path : Path) (hk₁ : k.Acquired d session k₁) :
    resources.Tracks d (prepareOpen a ctx session path) k₁ fun r k' ↦
      k.Recovered d k' ∧ ∀ opened ∈ r.toOption, opened.1 ≠ d := by
  have hok {session : Session} (entry : RemoteEntry) (hne : session ≠ d) :
      ∀ opened ∈ (Except.ok (session, entry) : Except Err _).toOption, opened.1 ≠ d := by
    intro opened hopened
    cases hopened
    exact hne
  refine (traced.checkedStat_tracks a.root path session).bind fun r k₂ hk₂ ↦ ?_
  cases r with
  | ok entry => exact .ret ⟨hk₁.recovered hk₂ hk₂.ne_of_ok, hok entry hk₂.ne_of_ok⟩
  | error err =>
      dsimp only
      split
      · refine (traced.invalidate_tracks (hk₁.gone_or hk₂)).bind ?_
        rintro _ k₃ ⟨hsure₃, -, hgone₃⟩
        refine (traced.currentSession_tracks ctx).bind ?_
        rintro _ k₄ ⟨reconnected, rfl, hk₄⟩
        have hne : reconnected ≠ d := hk₄.ne (by rw [hgone₃, Bool.or_true])
        refine (traced.checkedStat_tracks a.root path reconnected).bind fun r k₅ hk₅ ↦ ?_
        have hk := (hk₄.recovered hk₅ hne).of_sure (hsure₃.trans (hk₂.sure.trans hk₁.sure))
        cases r with
        | error err => exact .ret ⟨hk, nofun⟩
        | ok entry => exact .ret ⟨hk, hok entry hne⟩
      · rename_i hretry
        exact .ret ⟨hk₁.recovered hk₂ (hk₂.ne_of_error (Bool.not_eq_true _ ▸ hretry)), nofun⟩

theorem openStream_tracks (n : StreamId) (ctx : Ctx) (path : Path) :
    resources.Tracks d (openStream a n ctx path) k fun _ k' ↦ k.Recovered d k' := by
  have hunlock {k₁ : Know} (result : Option Err) (hk : k.Recovered d k₁) :
      resources.Tracks d (do
        perform .opUnlock
        return result) k₁ fun _ k' ↦ k.Recovered d k' :=
    .other (fun _ ↦ rfl) fun _ ↦ .ret hk
  refine .ask (fun _ ↦ rfl) ?_
  rintro (_ | err) hr
  · refine .other (fun _ ↦ rfl) fun _ ↦ (traced.currentSession_tracks ctx).bind ?_
    rintro _ k₁ ⟨session, rfl, hk₁⟩
    refine (prepareOpen_tracks ctx path hk₁).bind ?_
    rintro (err | ⟨session, entry⟩) k₂ ⟨hk₂, hopened⟩
    · exact hunlock _ hk₂
    · dsimp only
      split
      · exact hunlock _ hk₂
      · exact .keep (fun _ ↦ rfl) (hopened _ rfl) fun _ ↦ .ret hk₂
  · exact nomatch hr

/-! ## Operations that are not repeated -/

/-- An operation uses the session that it has got. -/
theorem only_of_on {α : Type} {p : Prog sig α} (h : p.Within (Cmd.On session)) :
    p.Within fun c ↦ ∀ r, (resources.event c r).Only session := by
  refine h.mono fun c hc r ↦ ?_
  cases c with
  | stat | list | makeDir | delete | rename | store =>
      exact Option.some.inj (hc.resolve_right nofun)
  | ctxErr ctx =>
      obtain _ | err := r
      · trivial
      · trivial
  | random => trivial
  | _ => exact absurd hc (by simp [Cmd.On, Cmd.target, Cmd.aside])

theorem delete_tracks (ctx : Ctx) (path : Path) :
    resources.Tracks d (delete a ctx path) k fun _ k' ↦ k.Careful d k' := by
  refine Reading.Tracks.bind (K := fun _ k' ↦ k.Careful d k') ?_ ?_
  · refine .other (fun _ ↦ rfl) fun _ ↦ (traced.withSession_careful ctx fun session k ↦
      Reading.tracks_only (only_of_on (deleteOn_within path session))).bind ?_
    exact fun _ _ hk ↦ .other (fun _ ↦ rfl) fun _ ↦ .ret hk
  · rintro (err | _) k' hk'
    · exact .ret hk'
    · exact .ret hk'

/-- Whether `Write` is refused before anything is asked of the server. -/
def refusedWrite (path : Path) (options : WriteOptions) : Bool := path.isRoot || options.ifNoneMatch

theorem write_tracks (ctx : Ctx) (path : Path) (source : Source) (options : WriteOptions) :
    resources.Tracks d (write a ctx path source options) k fun _ k' ↦
      k.Careful d k' ∧ (refusedWrite path options = true → k' = k) := by
  have hsame : k.Careful d k := ⟨rfl, id, fun _ hused ↦ hused⟩
  unfold write
  split
  · exact .ret ⟨hsame, fun _ ↦ rfl⟩
  split
  · exact .ret ⟨hsame, fun _ ↦ rfl⟩
  rename_i hroot hmatch
  have hrefused : refusedWrite path options = true → False := by
    unfold refusedWrite
    rw [Bool.or_eq_true]
    exact fun h ↦ h.elim hroot hmatch
  refine .other (fun _ ↦ rfl) fun _ ↦ (traced.currentSession_tracks ctx).bind ?_
  rintro _ k₁ ⟨session, rfl, hk₁⟩
  refine (Reading.tracks_only (only_of_on
    (writeLocked_within ctx session path source))).bind fun err k₂ hk₂ ↦ ?_
  have hk := hk₁.careful hk₂
  refine .other (fun _ ↦ rfl) fun _ ↦ ?_
  cases err with
  | none =>
      refine (stat_tracks ctx path).mono fun _ k₃ hk₃ ↦ ?_
      exact ⟨hk.trans hk₃.careful, fun h ↦ (hrefused h).elim⟩
  | some err => exact .ret ⟨hk, fun h ↦ (hrefused h).elim⟩

/-! ## Streams -/

/-- A program that uses no session. -/
theorem idle_of_spares {α : Type} {p : Prog sig α} (h : p.Within Cmd.Spares) :
    resources.Tracks d p k fun _ k' ↦ k'.sure = k.sure ∧ k'.used = k.used := by
  refine Reading.tracks_idle (h.mono fun c hc r ↦ ?_)
  cases c with
  | stat | list | makeDir | delete | rename | store | retrieve | retrieving | start =>
      exact nomatch hc
  | storeSession session =>
      obtain rfl := Option.isNone_iff_eq_none.mp hc
      exact (Option.some_ne_none d).symm
  | ctxErr ctx =>
      obtain _ | err := r
      · trivial
      · trivial
  | ctxDone | loadClosed =>
      obtain _ | _ := r
      · trivial
      · trivial
  | _ => trivial

theorem retrieve_tracks (n : StreamId) (name : Str) (wroteAny : Bool) (hne : session ≠ d) :
    resources.Tracks d (retrieve n session name wroteAny) k fun r k' ↦
      k'.used ≠ some d ∧ ∀ err ∈ r.1, isConnectionError err = false := by
  have hused {k' : Know} (h : k'.used = some session) : k'.used ≠ some d :=
    fun heq ↦ hne (Option.some.inj (h.symm.trans heq))
  refine .touch (fun _ ↦ rfl) fun _ ↦ .loop (fun _ k' ↦ k'.used = some session) rfl ?_
  refine fun wroteAny k₁ _ ↦ .use (fun _ ↦ rfl) ?_
  rintro (bytes | err) hfailed
  · refine (idle_of_spares (spares_of_background (pipeWrite_within n bytes))).bind ?_
    exact fun _ k₂ hk₂ ↦ .ret hk₂.2
  · refine .ret ⟨hused rfl, fun err' herr' ↦ ?_⟩
    obtain rfl : err = some err' := herr'
    exact hfailed.trans (decide_eq_false hne)

/-- A transfer on a session that is not dead stays on it. -/
theorem attempts_tracks (n : StreamId) (ctx : Ctx) (path : Path) (hne : session ≠ d) :
    resources.Tracks d (attempts a n session ctx path) k fun _ k' ↦ k'.used ≠ some d := by
  refine (retrieve_tracks n _ false hne).bind ?_
  rintro ⟨_ | err, wroteAny⟩ k₁ ⟨hused, herr⟩
  · exact .ret hused
  · dsimp only
    split
    · rename_i hretry
      have hbroken := (Bool.and_eq_true_iff.mp hretry).1
      exact nomatch (herr err rfl).symm.trans hbroken
    · exact .ret hused

theorem transfer_tracks (n : StreamId) :
    resources.Tracks d (transfer a n) k fun _ k' ↦ k'.used ≠ some d := by
  refine .find (e := Prod.fst) (fun _ ↦ rfl) ?_
  rintro ⟨session, ctx, path⟩ hne
  refine (attempts_tracks n ctx path hne).bind fun err k₁ hused ↦ ?_
  refine Reading.Tracks.mono (idle_of_spares ?_) fun _ k₂ hk₂ ↦ hk₂.2 ▸ hused
  exact .step rfl fun _ ↦ .step rfl fun _ ↦ .step rfl fun _ ↦ .command rfl

/-! ## Calls -/

theorem Tid.call_injective : Function.Injective Tid.call :=
  fun _ _ ↦ Tid.call.inj

/-- Whether a call replaces a session whose connection is lost. -/
def Call.recovers : Call → Bool
  | .openStream _ _ | .stat _ _ => true
  | .list _ _ options => 0 ≤ options.limit
  | _ => false

/-- Whether a call works on the session of the adapter and leaves it there if the
connection is lost. -/
def Call.mutates : Call → Bool
  | .write _ path _ options => !refusedWrite path options
  | .delete _ _ => true
  | _ => false

theorem Call.run_tracks (n : Nat) (call : Call) :
    resources.Tracks d (call.run a n) k fun _ k' ↦
      k.Copes call.recovers call.mutates d k' := by
  have hrecovered {call : Call} {k' : Know} (h : k.Recovered d k') :
      k.Copes call.recovers call.mutates d k' :=
    ⟨fun _ ↦ h, fun _ _ ↦ h.used, fun _ _ ↦ h.used⟩
  have hspared {call : Call} (h : call.recovers = false) {p : Prog sig Outcome}
      (hp : p.Within Cmd.Spares) :
      resources.Tracks d p k fun _ k' ↦ k.Copes call.recovers call.mutates d k' := by
    refine (idle_of_spares hp).mono fun _ k' hk' ↦ ⟨fun hc ↦ (nomatch h.symm.trans hc), ?_, ?_⟩
    · exact fun _ hused ↦ hk'.2 ▸ hused
    · exact fun _ hused ↦ hk'.2 ▸ hused
  cases call with
  | openStream ctx path =>
      exact (openStream_tracks n ctx path).bind fun _ _ hk' ↦ .ret (hrecovered hk')
  | stat ctx path => exact (stat_tracks ctx path).bind fun _ _ hk' ↦ .ret (hrecovered hk')
  | list ctx directory options =>
      refine (list_tracks ctx directory options).bind fun _ k' hk' ↦ .ret ?_
      rcases hk' with ⟨hlimit, rfl⟩ | hk'
      · refine ⟨fun hc ↦ ?_, fun _ hused ↦ hused, fun _ hused ↦ hused⟩
        exact absurd (of_decide_eq_true hc) (Int.not_le.mpr hlimit)
      · exact hrecovered hk'
  | write ctx path source options =>
      refine (write_tracks ctx path source options).bind fun _ k' hk' ↦ .ret ⟨nofun, ?_, ?_⟩
      · exact fun hsure ↦ hk'.1.used (by rw [hsure, Bool.true_or])
      · intro hrefused hused
        rwa [hk'.2 (by simpa [Call.mutates] using hrefused)]
  | delete ctx path =>
      refine (delete_tracks ctx path).bind fun _ k' hk' ↦ .ret ⟨nofun, ?_, nofun⟩
      exact fun hsure ↦ hk'.used (by rw [hsure, Bool.true_or])
  | read stream =>
      exact hspared rfl ((spares_of_background (read_within stream)).bind fun _ ↦ trivial)
  | closeStream stream =>
      exact hspared rfl ((spares_of_background (closeStream_within stream)).bind fun _ ↦ trivial)
  | close => exact hspared rfl (close_spares.bind fun _ ↦ trivial)
  | cancel ctx err => exact hspared rfl (.step rfl fun _ ↦ trivial)

/-- An adapter in some state, and the calls that are going to be made. -/
def resume (a : Adapter) (calls : Nat → Call) (s : State) : Config sig State Returns :=
  { start a calls with state := s }

/-- Every call on the session `d` fails with a connection error, no call on another
session does, the connector returns sessions, no context is done, the adapter is
open, and each call returns before the next one begins. -/
def LosesSession (d : Session) (c : Config sig State Returns) (l : Label sig Tid) : Prop :=
  resources.Supposed d l ∧ InTurn Tid.call c l

/-- The number of a call. -/
def Tid.index : Tid → Option Nat
  | .call n => some n
  | _ => none

variable {calls : Nat → Call} {s : State}

theorem copes (s : State) :
    resources.Cope .call Tid.index (fun n ↦ (calls n).recovers) (fun n ↦ (calls n).mutates)
      (fun s ↦ ∀ n, (s.streams n).started = false) (resume a calls s).threads where
  index_call _ := rfl
  eq_call t n h := by
    cases t with
    | call m => exact congrArg Tid.call (Option.some.inj h)
    | transfer | watch => exact nomatch h
  calls _ n _ := (calls n).run_tracks n
  others d t h := by
    cases t with
    | call n => exact nomatch h
    | transfer n => exact transfer_tracks n
    | watch n =>
        refine (idle_of_spares (spares_of_background (watchCancellation_within n))).mono ?_
        intro _ k hk
        rw [hk.2]
        exact nofun
  init s h k := by
    rintro ⟨n, hstarted, -⟩
    exact nomatch (h n).symm.trans hstarted

/-! ### Calls that meet the dead session -/

def Call.operates : Call → Bool
  | .openStream _ _ | .write _ _ _ _ | .delete _ _ | .stat _ _ | .list _ _ _ => true
  | _ => false

theorem eval_rejectLinks (t : Tid) (s : State) (candidate : Str) (candidates : List Str) :
    Eval (machine.beside t (resources.lost 0)) (client.rejectLinks 0 (candidate :: candidates))
      (s, none) (some (.sentinel .eof)) (s, some 0) :=
  traced.eval_rejectLinks runs rfl rfl candidate candidates

theorem eval_writeLocked (t : Tid) (s : State) (ctx : Ctx) (path : Path) (source : Source) :
    ∃ err, Eval (machine.beside t (resources.lost 0)) (writeLocked a ctx 0 path source) (s, none)
      (some err) (s, some 0) := by
  unfold writeLocked rejectLink
  cases a.linkCandidates path false with
  | nil =>
      exact ⟨_, resources.eval_step (.stat 0 (a.remotePath path)) (.error (.sentinel .eof)) rfl rfl
        .ret⟩
  | cons candidate candidates => exact ⟨_, (eval_rejectLinks t s candidate candidates).bind .ret⟩

theorem eval_withLockedResult {α : Type} {n : Nat} (ctx : Ctx) {err : Err}
    {operation : Session → Prog sig (Except Err α)}
    (h : Eval (machine.beside (.call n) (resources.lost 0)) (operation 0) ({ opMu := some n }, none)
      (.error err) ({ opMu := some n }, some 0)) :
    Eval (machine.beside (.call n) (resources.lost 0)) (withLockedResult ctx false operation)
      ({}, none) (.error err) ({}, some 0) := by
  have hsession : Eval (machine.beside (.call n) (resources.lost 0))
      (client.withSession ctx false operation) ({ opMu := some n }, none) (.error err)
      ({ opMu := some n }, some 0) :=
    (traced.eval_currentSession runs ctx rfl rfl rfl rfl).bind (h.bind .ret)
  exact resources.eval_step .opLock () rfl trivial
    (hsession.bind (resources.eval_step .opUnlock () rfl trivial .ret))

/-- A call that leaves a dead session in place can return from it. -/
theorem Call.eval_mutates (n : Nat) {call : Call} (h : call.mutates = true) : ∃ r,
    Eval (machine.beside (.call n) (resources.lost 0)) (call.run a n) ({}, none) r
      ({}, some 0) := by
  cases call with
  | openStream | stat | read | closeStream | close | cancel | list => exact nomatch h
  | write ctx path source options =>
      have hrefused : refusedWrite path options = false := by simpa [Call.mutates] using h
      obtain ⟨hroot, hmatch⟩ := Bool.or_eq_false_iff.mp hrefused
      obtain ⟨err, herr⟩ := eval_writeLocked (a := a) (.call n) { opMu := some n } ctx path source
      refine ⟨.metadata (.error (mapError path err)), Eval.bind ?_ .ret⟩
      unfold Ftp.write
      rw [hroot, hmatch]
      refine resources.eval_step .opLock () rfl trivial ?_
      refine (traced.eval_currentSession runs ctx rfl rfl rfl rfl).bind (herr.bind ?_)
      exact resources.eval_step .opUnlock () rfl trivial .ret
  | delete ctx path =>
      refine ⟨.err (some (mapError path (.sentinel .eof))), Eval.bind ?_ .ret⟩
      refine Eval.bind (eval_withLockedResult ctx ?_) (.ret : Eval _ (.ret (some _)) _ _ _)
      unfold rejectLink
      cases a.linkCandidates path true with
      | nil =>
          exact resources.eval_step (.delete 0 (a.remotePath path)) (some (.sentinel .eof)) rfl rfl
            .ret
      | cons candidate candidates => exact (eval_rejectLinks _ _ candidate candidates).bind .ret

/-- The other calls of operations either replace a dead session or do nothing. -/
theorem Call.eval_lost (n : Nat) {call : Call} (hoperates : call.operates = true)
    (hrecovers : call.recovers = false) : ∃ r used,
      Eval (machine.beside (.call n) (resources.lost 0)) (call.run a n) ({}, none) r
        ({}, used) := by
  cases hmutates : call.mutates with
  | true =>
      obtain ⟨r, heval⟩ := eval_mutates (a := a) n hmutates
      exact ⟨r, _, heval⟩
  | false =>
      suffices hret : ∃ r, call.run a n = .ret r by
        obtain ⟨r, hr⟩ := hret
        exact ⟨r, none, hr ▸ .ret⟩
      cases call with
      | openStream | stat => exact nomatch hrecovers
      | read | closeStream | close | cancel => exact nomatch hoperates
      | delete => exact nomatch hmutates
      | list ctx directory options =>
          have hlimit : options.limit < 0 := Int.not_le.mp (of_decide_eq_false hrecovers)
          refine ⟨.entries (.error (.new "ftp: list limit must not be negative" [])), ?_⟩
          dsimp only [Call.run, Ftp.list]
          rw [if_pos hlimit]
          rfl
      | write ctx path source options =>
          have hrefused : refusedWrite path options = true := by simpa [Call.mutates] using hmutates
          dsimp only [Call.run, Ftp.write]
          cases hroot : path.isRoot with
          | true => exact ⟨_, rfl⟩
          | false =>
              have hmatch : options.ifNoneMatch = true := by rwa [refusedWrite, hroot] at hrefused
              rw [hmatch]
              exact ⟨_, rfl⟩

/-- However calls are made one after another once the session of the adapter has died,
no call but the first returns having used the dead session last. -/
def Recovers (a : Adapter) (calls : Nat → Call) : Prop :=
  ∀ (s : State) (d : Session) (trace : List (Label sig Tid)) (c : Config sig State Returns),
    s.session = some d → d < s.dialed → (∀ n, (s.streams n).started = false) →
    RunIf machine (LosesSession d) (resume a calls s) trace c →
    ∀ n ≥ 1, ∀ r, c.threads (.call n) = .ret r → resources.lastUsed trace (.call n) ≠ some d

/-- Operations recover if and only if those that leave a dead session in place come
after one that replaces it. -/
theorem recovers_iff (hoperates : ∀ n, (calls n).operates = true) :
    Recovers a calls ↔
      ∀ n ≥ 1, (calls n).mutates = true → ∃ m < n, (calls m).recovers = true :=
  (copes {}).recovers_iff (s := {}) (d := 0) (fun _ ↦ rfl) rfl Nat.one_pos
    (fun n ↦ Call.eval_lost n (hoperates n)) fun n ↦ Call.eval_mutates n

end GoFilesystem.Ftp
