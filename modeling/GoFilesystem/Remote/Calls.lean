import GoFilesystem.Conc.Solo
import GoFilesystem.Go.Elements
import GoFilesystem.Remote.Server
import GoFilesystem.Remote.Sessions

/-!
# One call of an adapter for a server

One call while nothing else goes on.  The world of the call is the state of the adapter
and everything outside of it, which answers the commands by a relation `serves`.  What
the functions that the adapters share do in such a world is said here, if the outside
answers the shared commands as a server does (`Runs.Served`).

If `P` holds, the call goes on undisturbed, and `live` says that it has to end
(`Runs.Assumes`).
-/

namespace GoFilesystem.Remote

open Go Conc Posix PathName

/-- Nothing keeps a call from going on: the adapter is open, the context is not done,
and the lock is held by the call or by nobody. -/
structure Idle {Tid : Type} (ctx : Ctx) (mu : Bool) (s : State Tid) : Prop where
  closed : s.closed = false
  ctx_eq : s.ctx ctx = none
  mu_eq : s.mu.isSome = mu

/-- Without faults, the connector returns a session. -/
def Connects (faults : Bool) : (c : Cmd) → c.Resp → Prop
  | .connect _, (r : Except Err Session) => faults = false → r.isOk = true
  | _, _ => True

namespace Client

variable {S : Sig} {Tid St V : Type} {C : Client S} {M : Machine S Tid St}

def terms (C : Client S) (faults : Bool) : Terms := ⟨faults, C.isNotFound, C.isConnectionError⟩

namespace Runs

/-- The adapter is idle, and `K` holds of the rest of its state. -/
structure Idle (x : C.Runs M) (K : St → Prop) (ctx : Ctx) (mu : Bool) (s : St) : Prop extends
    Remote.Idle ctx mu (x.base s) where
  rest : K s

/-- The call `t` on its own.  If there are faults, contexts may be done at any time. -/
def alone (x : C.Runs M) (faults : Bool) (serves : St → Answers S V) (t : Tid) :
    Answers S (St × V) :=
  fun w c r w' ↦ ∃ ctx,
    (∀ k, ctx k = (x.base w.1).ctx k ∨ (faults = true ∧ (x.base w.1).ctx k = none)) ∧
      M.apply t c r (x.put w.1 { x.base w.1 with ctx }) = some w'.1 ∧
      serves (x.put w.1 { x.base w.1 with ctx }) w.2 c r w'.2

/-- The call has gone on, and everything outside is as before. -/
structure Goes (x : C.Runs M) (K : St → Prop) (P : Prop) (ctx : Ctx) (mu : Bool)
    (w w' : St × V) : Prop where
  outside : w'.2 = w.2
  idle : P → x.Idle K ctx mu w'.1

/-- There are no faults while `P` holds, which does if the call has to end; and the
functions of the session have no part in `K`. -/
structure Assumes (x : C.Runs M) (faults : Bool) (K : St → Prop) (P live : Prop) : Prop where
  keeps : ∀ s s₀, K s → K (x.put s s₀)
  quiet : P → faults = false
  live : live → P

/-- How a server answers the commands. -/
structure Served (x : C.Runs M) (faults : Bool) (serves : St → Answers S V)
    (server : V → Server) : Prop where
  own : ∀ s v c r v', c.upkeep = true →
    (serves s v (C.cmd c) r v' ↔ v' = v ∧ Connects faults c (C.resp c r))
  lstat : ∀ s v session name r v', serves s v (C.cmd (.lstat session name)) r v' ↔
    v' = v ∧ (C.terms faults).Stats (elements name) (server v)
      (C.resp (.lstat session name) r) (server v)
  stat : ∀ s v session name r v', serves s v (C.cmd (.stat session name)) r v' ↔
    v' = v ∧ (C.terms faults).Stats (elements name) (server v)
      (C.resp (.stat session name) r) (server v)
  missing : ∃ err, C.isNotFound err = true ∧ C.isConnectionError err = false

variable {x : C.Runs M} {faults : Bool} {serves : St → Answers S V} {server : V → Server}
  {K K' : St → Prop} {P live : Prop} {t : Tid} {ctx : Ctx} {mu mu' : Bool} {w w' w'' : St × V}
  {c : S.Cmd}

theorem Goes.trans (h : x.Goes K P ctx mu w w') (h' : x.Goes K' P ctx mu' w' w'') :
    x.Goes K' P ctx mu' w w'' :=
  ⟨h'.outside.trans h.outside, h'.idle⟩

/-- A call goes on undisturbed as long as there are no faults. -/
theorem Idle.of_ctx {s : St} {ctx' : Ctx → Option CtxErr} (h : x.Idle K ctx mu s)
    (hkeeps : ∀ s s₀, K s → K (x.put s s₀)) (hfaults : faults = false)
    (hctx : ∀ k, ctx' k = (x.base s).ctx k ∨ (faults = true ∧ (x.base s).ctx k = none)) :
    x.Idle K ctx mu (x.put s { x.base s with ctx := ctx' }) where
  closed := by
    rw [x.base_put]
    exact h.closed
  ctx_eq := by
    rw [x.base_put]
    rcases hctx ctx with heq | ⟨htrue, -⟩
    · exact heq.trans h.ctx_eq
    · exact nomatch htrue.symm.trans hfaults
  mu_eq := by
    rw [x.base_put]
    exact h.mu_eq
  rest := hkeeps _ _ h.rest

/-! ## Commands -/

/-- What a command does to everything outside. -/
theorem ensures_serves {Q : S.Resp c → St × V → Prop}
    (h : ∀ s r s' v, serves s w.2 c r v → Q r (s', v)) :
    Ensures (x.alone faults serves t) False (Prog.perform c) w Q :=
  Ensures.command nofun fun _ _ ⟨_, _, _, hserves⟩ ↦ h _ _ _ _ hserves

/-- A command that is answered while no context becomes done. -/
theorem eval_call {α : Type} {k : S.Resp c → Prog S α} {r : S.Resp c} {s s' : St} {v v' : V} {a : α}
    (happly : M.apply t c r s = some s') (hserves : serves s v c r v')
    (h : Eval (x.alone faults serves t) (k r) (s', v') a w) :
    Eval (x.alone faults serves t) (.call c k) (s, v) a w := by
  have hput : x.put s { x.base s with ctx := (x.base s).ctx } = s := x.put_base s
  exact .call ⟨(x.base s).ctx, fun _ ↦ .inl rfl, hput.symm ▸ happly, hput.symm ▸ hserves⟩ h

section Commands

variable (ha : x.Assumes faults K P live)
include ha

/-- A command that does not reach the outside. -/
theorem ensures_step {X : S.Resp c → Prop} (hown : ∀ s r v, serves s w.2 c r v → v = w.2)
    (hexists : ∀ s, faults = false → x.Idle K ctx mu s →
      ∃ r s', M.apply t c r s = some s' ∧ serves s w.2 c r w.2)
    (hstep : ∀ r s s', faults = false → x.Idle K ctx mu s → M.apply t c r s = some s' →
      serves s w.2 c r w.2 → x.Idle K' ctx mu' s' ∧ X r) (hw : P → x.Idle K ctx mu w.1) :
    Ensures (x.alone faults serves t) live (Prog.perform c) w fun r w' ↦
      x.Goes K' P ctx mu' w w' ∧ (P → X r) := by
  refine Ensures.command (fun hl ↦ ?_) ?_
  · have hp := ha.live hl
    obtain ⟨r, s', happly, hserves⟩ := hexists w.1 (ha.quiet hp) (hw hp)
    have hput : x.put w.1 { x.base w.1 with ctx := (x.base w.1).ctx } = w.1 := x.put_base w.1
    exact ⟨r, (s', w.2), (x.base w.1).ctx, fun _ ↦ .inl rfl, hput.symm ▸ happly,
      hput.symm ▸ hserves⟩
  · rintro r w' ⟨ctx', hctx, happly, hserves⟩
    have houtside := hown _ _ _ hserves
    rw [houtside] at hserves
    have hfree (hp : P) : x.Idle K' ctx mu' w'.1 ∧ X r :=
      hstep r _ _ (ha.quiet hp) ((hw hp).of_ctx ha.keeps (ha.quiet hp) hctx) happly hserves
    exact ⟨⟨houtside, fun hp ↦ (hfree hp).1⟩, fun hp ↦ (hfree hp).2⟩

/-- A request, which leaves the adapter as it is. -/
theorem ensures_request (hc : ∀ r s, M.apply t c r s = some s) {Q : S.Resp c → St × V → Prop}
    (hexists : live → ∃ r v, serves w.1 w.2 c r v)
    (h : ∀ r s v, (P → x.Idle K ctx mu s) → serves s w.2 c r v → Q r (s, v))
    (hw : P → x.Idle K ctx mu w.1) :
    Ensures (x.alone faults serves t) live (Prog.perform c) w Q := by
  refine Ensures.command (fun hl ↦ ?_) ?_
  · obtain ⟨r, v, hserves⟩ := hexists hl
    have hput : x.put w.1 { x.base w.1 with ctx := (x.base w.1).ctx } = w.1 := x.put_base w.1
    exact ⟨r, (w.1, v), (x.base w.1).ctx, fun _ ↦ .inl rfl, hput.symm ▸ hc r w.1,
      hput.symm ▸ hserves⟩
  · rintro r ⟨s, v⟩ ⟨ctx', hctx, happly, hserves⟩
    cases (hc r _).symm.trans happly
    exact h r _ v (fun hp ↦ (hw hp).of_ctx ha.keeps (ha.quiet hp) hctx) hserves

end Commands

/-! ## The session -/

section Session

variable (h : x.Served faults serves server) (ha : x.Assumes faults K P live)
include h ha

/-- A command that sees to the session. -/
theorem ensures_own {c : Cmd} {X : c.Resp → Prop} (hc : c.upkeep = true)
    (hexists : ∀ s : State Tid, Remote.Idle ctx mu s →
      ∃ r s', apply t c r s = some s' ∧ Connects false c r)
    (hstep : ∀ r (s s' : State Tid), Remote.Idle ctx mu s → apply t c r s = some s' →
      Connects false c r → Remote.Idle ctx mu' s' ∧ X r)
    (hw : P → x.Idle K ctx mu w.1) :
    Ensures (x.alone faults serves t) live (C.perform c) w fun r w' ↦
      x.Goes K P ctx mu' w w' ∧ (P → X r) := by
  have hperform : Ensures (x.alone faults serves t) live (Prog.perform (C.cmd c)) w fun r w' ↦
      x.Goes K P ctx mu' w w' ∧ (P → X (C.resp c r)) := by
    refine ensures_step ha (fun s r v hserves ↦ ((h.own _ _ _ _ _ hc).mp hserves).1) ?_ ?_ hw
    · rintro s rfl hs
      obtain ⟨r, s₀, happly, hconnects⟩ := hexists _ hs.toIdle
      refine ⟨(C.resp c).symm r, x.put s s₀, ?_, (h.own _ _ _ _ _ hc).mpr ⟨rfl, ?_⟩⟩
      · rw [x.apply_eq, (C.resp c).apply_symm_apply, happly]
        rfl
      · rwa [(C.resp c).apply_symm_apply]
    · rintro r s s' rfl hs happly hserves
      rw [x.apply_eq] at happly
      obtain ⟨s₀, hsession, rfl⟩ := Option.map_eq_some_iff.mp happly
      obtain ⟨hidle, hx⟩ := hstep _ _ _ hs.toIdle hsession ((h.own _ _ _ _ _ hc).mp hserves).2
      exact ⟨⟨(x.base_put s s₀).symm ▸ hidle, ha.keeps s s₀ hs.rest⟩, hx⟩
  exact hperform.bind fun r w' hr ↦ hr

theorem ensures_ctxErr (hw : P → x.Idle K ctx mu w.1) :
    Ensures (x.alone faults serves t) live (C.perform (.ctxErr ctx)) w fun r w' ↦
      x.Goes K P ctx mu w w' ∧ (P → r = none) := by
  refine ensures_own h ha rfl (fun s _ ↦ ⟨s.ctx ctx, s, if_pos rfl, trivial⟩) ?_ hw
  intro r s s' hs happly _
  obtain ⟨rfl, heq⟩ := of_ite_some happly
  exact ⟨heq ▸ hs, hs.ctx_eq⟩

theorem ensures_lock (hw : P → x.Idle K ctx false w.1) :
    Ensures (x.alone faults serves t) live (C.perform .lock) w fun _ w' ↦
      x.Goes K P ctx true w w' := by
  refine (ensures_own (X := fun _ ↦ True) h ha rfl (fun s hs ↦ ?_) ?_ hw).mono fun _ _ h ↦ h.1
  · exact ⟨(), _, if_pos (by simpa using hs.mu_eq), trivial⟩
  · intro r s s' hs happly _
    obtain ⟨-, rfl⟩ := of_ite_some happly
    exact ⟨⟨hs.closed, hs.ctx_eq, rfl⟩, trivial⟩

theorem ensures_unlock (hw : P → x.Idle K ctx true w.1) :
    Ensures (x.alone faults serves t) live (C.perform .unlock) w fun _ w' ↦
      x.Goes K P ctx false w w' := by
  refine (ensures_own (X := fun _ ↦ True) h ha rfl (fun s hs ↦ ?_) ?_ hw).mono fun _ _ h ↦ h.1
  · exact ⟨(), _, if_pos hs.mu_eq, trivial⟩
  · intro r s s' hs happly _
    obtain ⟨-, rfl⟩ := of_ite_some happly
    exact ⟨⟨hs.closed, hs.ctx_eq, rfl⟩, trivial⟩

theorem ensures_loadClosed (hw : P → x.Idle K ctx mu w.1) :
    Ensures (x.alone faults serves t) live (C.perform .loadClosed) w fun r w' ↦
      x.Goes K P ctx mu w w' ∧ (P → r = false) := by
  refine ensures_own h ha rfl (fun s _ ↦ ⟨s.closed, s, if_pos rfl, trivial⟩) ?_ hw
  intro r s s' hs happly _
  obtain ⟨rfl, heq⟩ := of_ite_some happly
  exact ⟨heq ▸ hs, hs.closed⟩

theorem ensures_loadSession (hw : P → x.Idle K ctx mu w.1) :
    Ensures (x.alone faults serves t) live (C.perform .loadSession) w fun _ w' ↦
      x.Goes K P ctx mu w w' := by
  refine (ensures_own (X := fun _ ↦ True) h ha rfl (fun s _ ↦ ?_) ?_ hw).mono fun _ _ h ↦ h.1
  · exact ⟨s.session, s, if_pos rfl, trivial⟩
  · intro r s s' hs happly _
    obtain ⟨rfl, heq⟩ := of_ite_some happly
    exact ⟨heq ▸ hs, trivial⟩

theorem ensures_connect (hw : P → x.Idle K ctx mu w.1) :
    Ensures (x.alone faults serves t) live (C.perform (.connect ctx)) w fun r w' ↦
      x.Goes K P ctx mu w w' ∧ (P → r.isOk = true) := by
  refine ensures_own h ha rfl (fun s _ ↦ ?_) ?_ hw
  · exact ⟨.ok s.dialed, _, if_pos rfl, fun _ ↦ rfl⟩
  · rintro (err | session) s s' hs happly hok
    · exact nomatch hok rfl
    · obtain ⟨-, rfl⟩ := of_ite_some happly
      exact ⟨⟨hs.closed, hs.ctx_eq, hs.mu_eq⟩, rfl⟩

theorem ensures_storeSession (session : Option Session) (hw : P → x.Idle K ctx mu w.1) :
    Ensures (x.alone faults serves t) live (C.perform (.storeSession session)) w fun _ w' ↦
      x.Goes K P ctx mu w w' := by
  refine (ensures_own (X := fun _ ↦ True) h ha rfl (fun s _ ↦ ?_) ?_ hw).mono fun _ _ h ↦ h.1
  · exact ⟨(), _, rfl, trivial⟩
  · intro r s s' hs happly _
    cases happly
    exact ⟨⟨hs.closed, hs.ctx_eq, hs.mu_eq⟩, trivial⟩

theorem ensures_currentSession (hw : P → x.Idle K ctx false w.1) :
    Ensures (x.alone faults serves t) live (C.currentSession ctx) w fun r w' ↦
      x.Goes K P ctx false w w' ∧ (P → r.isOk = true) := by
  refine (ensures_ctxErr h ha hw).check ?_ ?_
  · rintro err w₁ ⟨h₁, hr⟩
    exact ⟨⟨h₁.outside, h₁.idle⟩, fun hp ↦ nomatch hr hp⟩
  rintro w₁ ⟨h₁, -⟩
  refine (ensures_lock h ha h₁.idle).bind ?_
  rintro _ w₂ h₂
  refine (ensures_loadClosed h ha h₂.idle).bind ?_
  rintro (_ | _) w₃ ⟨h₃, hr⟩
  · refine (ensures_loadSession h ha h₃.idle).bind ?_
    rintro (_ | session) w₄ h₄
    · refine (ensures_connect h ha h₄.idle).bind ?_
      rintro (err | session) w₅ ⟨h₅, hr⟩
      · refine (ensures_unlock h ha h₅.idle).bind ?_
        rintro _ w₆ h₆
        exact ⟨h₁.trans (h₂.trans (h₃.trans (h₄.trans (h₅.trans h₆)))), hr⟩
      · refine (ensures_storeSession h ha _ h₅.idle).bind ?_
        rintro _ w₆ h₆
        refine (ensures_unlock h ha h₆.idle).bind ?_
        rintro _ w₇ h₇
        exact ⟨h₁.trans (h₂.trans (h₃.trans (h₄.trans (h₅.trans (h₆.trans h₇))))), fun _ ↦ rfl⟩
    · refine (ensures_unlock h ha h₄.idle).bind ?_
      rintro _ w₅ h₅
      exact ⟨h₁.trans (h₂.trans (h₃.trans (h₄.trans h₅))), fun _ ↦ rfl⟩
  · refine (ensures_unlock h ha h₃.idle).bind ?_
    rintro _ w₄ h₄
    exact ⟨h₁.trans (h₂.trans (h₃.trans h₄)), fun hp ↦ nomatch hr hp⟩

/-- An operation that gives no reason to connect again. -/
theorem ensures_withSession {α : Type} {operation : Session → Prog S (Except Err α)}
    {Q : Except Err α → V → Prop} (hQ : ∀ err v, Q (.error err) v → C.isConnectionError err = false)
    (hoperation : ∀ session w', w'.2 = w.2 → (P → x.Idle K ctx false w'.1) →
      Ensures (x.alone faults serves t) live (operation session) w' fun r (w' : St × V) ↦
        (P → x.Idle K ctx false w'.1) ∧ Q r w'.2)
    (retry : Bool) (hw : P → x.Idle K ctx false w.1) :
    Ensures (x.alone faults serves t) live (C.withSession ctx retry operation) w
      fun r (w' : St × V) ↦ (P → x.Idle K ctx false w'.1) ∧
        match r with
        | .ok _ => Q r w'.2
        | .error _ => P → Q r w'.2 := by
  refine (ensures_currentSession h ha hw).bind ?_
  rintro (err | session) w₁ ⟨h₁, hr⟩
  · exact ⟨h₁.idle, fun hp ↦ nomatch hr hp⟩
  refine (hoperation session w₁ h₁.outside h₁.idle).bind ?_
  rintro (err | result) w₂ ⟨h₂, hq⟩
  · dsimp only
    rw [hQ err _ hq, Bool.and_false]
    exact ⟨h₂, fun _ ↦ hq⟩
  · exact ⟨h₂, hq⟩

theorem ensures_lstat (session : Session) (name : Str) (hw : P → x.Idle K ctx mu w.1) :
    Ensures (x.alone faults serves t) live (C.perform (.lstat session name)) w fun r w' ↦
      x.Goes K P ctx mu w w' ∧
        (C.terms faults).Stats (elements name) (server w.2) r (server w.2) := by
  have hrequest : Ensures (x.alone faults serves t) live
      (Prog.perform (C.cmd (.lstat session name))) w fun r w' ↦ x.Goes K P ctx mu w w' ∧
        (C.terms faults).Stats (elements name) (server w.2) (C.resp (.lstat session name) r)
          (server w.2) := by
    refine ensures_request ha (fun r s ↦ ?_) (fun _ ↦ ?_) (fun r s v hs hserves ↦ ?_) hw
    · rw [x.apply_eq]
      exact congrArg some (x.put_base s)
    · obtain ⟨err, hmissing, hconnection⟩ := h.missing
      obtain ⟨r, hr⟩ := (C.terms faults).exists_stats (elements name) (server w.2) err hmissing
        hconnection
      refine ⟨(C.resp (.lstat session name)).symm r, w.2, (h.lstat ..).mpr ⟨rfl, ?_⟩⟩
      rwa [(C.resp (.lstat session name)).apply_symm_apply]
    · obtain ⟨rfl, hstats⟩ := (h.lstat ..).mp hserves
      exact ⟨⟨rfl, hs⟩, hstats⟩
  exact hrequest.bind fun r w' hr ↦ hr

/-- The check for links finds none. -/
theorem ensures_rejectLinks (session : Session) (candidates : List Str)
    (hw : P → x.Idle K ctx mu w.1) :
    Ensures (x.alone faults serves t) live (C.rejectLinks session candidates) w fun r w' ↦
      x.Goes K P ctx mu w w' ∧ (faults = false → r = none) := by
  induction candidates generalizing w with
  | nil => exact ⟨⟨rfl, hw⟩, fun _ ↦ rfl⟩
  | cons candidate candidates ih =>
      refine (ensures_lstat h ha session candidate hw).bind ?_
      rintro (err | child) w₁ ⟨h₁, hstats⟩
      · refine ⟨h₁, fun hfaults ↦ ?_⟩
        exact if_pos (hstats.2.2 hfaults).2.1
      · obtain ⟨-, object, -, hdescribes⟩ := hstats
        dsimp only
        rw [hdescribes.noLink]
        refine (ih h₁.idle).mono ?_
        rintro r w₂ ⟨h₂, hr⟩
        exact ⟨h₁.trans h₂, hr⟩

end Session

/-! ## Functions that leave the outside as it is -/

section Inert

theorem inert_of_serves (h : ∀ s v r v', serves s v c r v' → v' = v) :
    Still (x.alone faults serves t) Prod.snd (Prog.perform c) :=
  fun _ ↦ ensures_serves fun s _ _ _ hserves ↦ h s _ _ _ hserves

variable (h : x.Served faults serves server)
include h

/-- A server answers as before while something is noted of other commands. -/
theorem Served.noting {H : Type} {note : S.Cmd → List H} (hnote : ∀ c, note (C.cmd c) = []) :
    x.Served faults (fun s ↦ (serves s).noting note) fun v : V × List H ↦ server v.1 where
  own s v c r v' hc := by
    simp only [Answers.noting, hnote, List.append_nil, h.own _ _ _ _ _ hc, Prod.ext_iff]
    exact and_right_comm
  lstat s v session name r v' := by
    simp only [Answers.noting, hnote, List.append_nil, h.lstat, Prod.ext_iff]
    exact and_right_comm
  stat s v session name r v' := by
    simp only [Answers.noting, hnote, List.append_nil, h.stat, Prod.ext_iff]
    exact and_right_comm
  missing := h.missing

theorem Served.inert_perform (c : Cmd) :
    Still (x.alone faults serves t) Prod.snd (Prog.perform (C.cmd c)) := by
  refine inert_of_serves fun s v r v' hserves ↦ ?_
  cases c with
  | lstat => exact ((h.lstat ..).mp hserves).1
  | stat => exact ((h.stat ..).mp hserves).1
  | _ => exact ((h.own _ _ _ _ _ rfl).mp hserves).1

/-- A program that uses the shared commands only. -/
theorem Served.inert_within {α : Type} {p : Prog S α} (hp : p.Within fun c ↦ ∃ c₀, c = C.cmd c₀) :
    Still (x.alone faults serves t) Prod.snd p := by
  refine .of_within hp ?_
  rintro _ ⟨c, rfl⟩
  exact h.inert_perform c

theorem Served.inert_currentSession (ctx : Ctx) :
    Still (x.alone faults serves t) Prod.snd (C.currentSession ctx) :=
  h.inert_within (currentSession_within (fun c _ ↦ ⟨c, rfl⟩) ctx)

theorem Served.inert_rejectLinks (session : Session) (candidates : List Str) :
    Still (x.alone faults serves t) Prod.snd (C.rejectLinks session candidates) :=
  h.inert_within (rejectLinks_within (fun _ ↦ ⟨_, rfl⟩) candidates)

/-- The operation of `Stat`, as often as it may be made. -/
theorem Served.inert_withSession_checkedStat (ctx : Ctx) (retry : Bool) (root : Str) (path : Path) :
    Still (x.alone faults serves t) Prod.snd
      (C.withSession ctx retry (C.checkedStat root path)) :=
  h.inert_within (withSession_within (fun c _ ↦ ⟨c, rfl⟩) ctx retry fun _ ↦
    checkedStat_within (fun _ ↦ ⟨_, rfl⟩) (fun _ ↦ ⟨_, rfl⟩) root path)

end Inert

end Runs

end Client

end GoFilesystem.Remote
