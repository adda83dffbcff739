import GoFilesystem.Conc.Solo
import GoFilesystem.Decorator.Adapter

/-!
# Retries

`retryCall` as the loop that the source has, with no bound of its own: a round looks
at the context, makes the call and, if the outcome can be retried, waits for a timer
or for the context.  The wrapped call and the context are the world around it, and
what the loop does there is recorded as a trace of events.

`eval_of_retryCall` says that the decorator's `retryCall`, which counts its attempts
down, is this loop.
-/

namespace GoFilesystem.Decorator

open Go Conc

/-- `RetryPolicy` as it is given to `WithRetry`; a function may be nil. -/
structure RetryOptions where
  attempts : Int
  retryable : Option (Err → Bool)
  backoff : Option (Nat → Int)

/-- `WithRetry`: the policy it puts into the configuration. -/
def withRetry (options : RetryOptions) : Except Err RetryPolicy :=
  if h : options.attempts ≤ 0 then .error (.new "decorator: retry attempts must be positive" [])
  else
    match options.retryable with
    | none => .error (.new "decorator: retry classifier is required" [])
    | some retryable =>
      .ok ⟨options.attempts.toNat, Int.pos_iff_toNat_pos.mp (not_le.mp h), retryable,
        options.backoff⟩

/-- A policy that is admitted is what the options say. -/
theorem of_withRetry {options : RetryOptions} {policy : RetryPolicy}
    (h : withRetry options = .ok policy) :
    policy.attempts = options.attempts ∧ some policy.retryable = options.retryable ∧
      policy.backoff = options.backoff := by
  unfold withRetry at h
  split at h
  · cases h
  · next hpos =>
      split at h
      · cases h
      · next retryable hretryable =>
          cases h
          exact ⟨Int.toNat_of_nonneg (not_le.mp hpos).le, hretryable.symm, rfl⟩

namespace Retry

variable {σ α : Type}

/-- What `retryCall` does, beside computing. -/
inductive Cmd where
  | ctxErr
  | call
  /-- The `select` between the context and a timer. -/
  | wait (delay : Int)

/-- The responses; that of `wait` says whether the context was received from. -/
@[reducible] def Cmd.Resp (α : Type) : Cmd → Type
  | .ctxErr => Option CtxErr
  | .call => α × Option Err
  | .wait _ => Bool

/-- The signature of `retryCall`. -/
@[reducible] def sig (α : Type) : Sig := ⟨Cmd, Cmd.Resp α⟩

def perform (c : Cmd) : Prog (sig α) (c.Resp α) := Prog.perform (S := sig α) c

/-- An attempt whose outcome is not retried for what it is, or because it is the
last one. -/
def isFinal (policy : RetryPolicy) (attempt : Nat) (err : Err) : Bool :=
  attempt = policy.attempts || err.is .canceled || err.is .deadlineExceeded ||
    !policy.retryable err

theorem isFinal_of_eq {policy : RetryPolicy} {attempt : Nat} (h : attempt = policy.attempts)
    (err : Err) : isFinal policy attempt err = true := by
  simp [isFinal, h]

theorem isFinal_of_ne {policy : RetryPolicy} {attempt : Nat} (h : attempt ≠ policy.attempts)
    (err : Err) : isFinal policy attempt err =
      (err.is .canceled || err.is .deadlineExceeded || !policy.retryable err) := by
  simp [isFinal, h]

def retryWait (policy : RetryPolicy) (zero : α) (attempt : Nat) :
    Prog (sig α) (Nat ⊕ (α × Option Err)) := do
  match policy.backoff with
  | none => return .inl (attempt + 1)
  | some backoff =>
    match ← perform (.wait (backoff attempt)) with
    | true =>
      let err ← perform .ctxErr
      return .inr (zero, err.map CtxErr.err)
    | false => return .inl (attempt + 1)

def retryNext (policy : RetryPolicy) (zero : α) (attempt : Nat) :
    Prog (sig α) (Nat ⊕ (α × Option Err)) := do
  match ← perform .ctxErr with
  | some err => return .inr (zero, some err.err)
  | none =>
    match ← perform .call with
    | (result, none) => return .inr (result, none)
    | (result, some err) =>
      if isFinal policy attempt err then return .inr (result, some err)
      else retryWait policy zero attempt

/-- `retryCall`. -/
def retryCall (policy : Option RetryPolicy) (zero : α) : Prog (sig α) (α × Option Err) :=
  match policy with
  | none => perform .call
  | some policy => Prog.loop (retryNext policy zero) 1

/-! ## The decorator's `retryCall` -/

section Method

variable (call : Method σ (α × Option Err)) (env : Env)

/-- The world of a call on the decorator.  A wait looks at the context once: the
timer wins if that is live. -/
inductive Served : Answers (sig α) (Frame σ)
  | looked {frame : Frame σ} {err : Option CtxErr} (h : env.ctx frame.polls = err) :
      Served frame .ctxErr err { frame with polls := frame.polls + 1 }
  | called {frame frame' : Frame σ} {outcome : α × Option Err}
      (h : call env frame = some (outcome, frame')) : Served frame .call outcome frame'
  | done {frame : Frame σ} {delay : Int} (h : env.ctx frame.polls ≠ none) :
      Served frame (.wait delay) true frame
  | fired {frame : Frame σ} {delay : Int} (h : env.ctx frame.polls = none) :
      Served frame (.wait delay) false { frame with polls := frame.polls + 1 }

variable {call env} {policy : RetryPolicy} {zero : α} {frame frame' : Frame σ}
  {result : α × Option Err}

/-- The outcome of the last attempt is returned, whatever it is. -/
theorem eval_retryNext_of_isFinal (policy : RetryPolicy) (zero : α) (attempt : Nat)
    {frame₁ frame₂ : Frame σ}
    (hlooked : Served call env frame .ctxErr none frame₁)
    (hcalled : Served call env frame₁ .call result frame₂)
    (hfinal : ∀ err, result.2 = some err → isFinal policy attempt err = true) :
    Eval (Served call env) (retryNext policy zero attempt) frame (.inr result) frame₂ := by
  refine .call hlooked (.call hcalled ?_)
  obtain ⟨value, err | err⟩ := result
  · exact .ret
  · change Eval _ (if isFinal policy attempt err = true then _ else _) _ _ _
    rw [if_pos (hfinal err rfl)]
    exact .ret

/-- Any other outcome is followed by a wait. -/
theorem eval_retryNext_of_not_isFinal (zero : α) {attempt : Nat} {frame₁ frame₂ : Frame σ}
    {value : α} {err : Err} {x : Nat ⊕ (α × Option Err)}
    (hlooked : Served call env frame .ctxErr none frame₁)
    (hcalled : Served call env frame₁ .call (value, some err) frame₂)
    (hfinal : ¬ isFinal policy attempt err = true)
    (hwait : Eval (Served call env) (retryWait policy zero attempt) frame₂ x frame') :
    Eval (Served call env) (retryNext policy zero attempt) frame x frame' := by
  refine .call hlooked (.call hcalled ?_)
  change Eval _ (if isFinal policy attempt err = true then _ else _) _ _ _
  rw [if_neg hfinal]
  exact hwait

/-- A wait ends with the next attempt, or with the context. -/
theorem eval_retryWait (zero : α) (attempt : Nat) {rest : Method σ (α × Option Err)}
    (h : (match policy.backoff with
      | none => rest
      | some _ => do
        match ← Method.ctxErr with
        | some err => return (zero, some err)
        | none => rest) env frame = some (result, frame')) :
    (∃ next, Eval (Served call env) (retryWait policy zero attempt) frame
        (.inl (attempt + 1)) next ∧ rest env next = some (result, frame')) ∨
      Eval (Served call env) (retryWait policy zero attempt) frame (.inr result) frame' := by
  unfold retryWait
  cases hbackoff : policy.backoff with
  | none =>
      rw [hbackoff] at h
      exact .inl ⟨frame, .ret, h⟩
  | some backoff =>
      rw [hbackoff] at h
      dsimp only at h
      rw [Call.bind_apply, Method.ctxErr_apply, Option.bind_some] at h
      cases hctx : env.ctx frame.polls with
      | some err =>
          rw [hctx] at h
          cases h
          exact .inr (.call (.done (hctx ▸ nofun)) (.call (.looked hctx) .ret))
      | none =>
          rw [hctx] at h
          exact .inl ⟨_, .call (.fired hctx) .ret, h⟩

/-- Counting the attempts that are left is counting those that were made. -/
theorem eval_of_retryFrom {remaining attempt : Nat}
    (hattempt : attempt + remaining = policy.attempts)
    (h : retryFrom policy zero call remaining env frame = some (result, frame')) :
    Eval (Served call env) (Prog.loop (retryNext policy zero) attempt) frame result frame' := by
  induction remaining generalizing attempt frame with
  | zero =>
      rw [retryFrom, Call.bind_apply, Method.ctxErr_apply, Option.bind_some] at h
      cases hctx : env.ctx frame.polls with
      | some err =>
          rw [hctx] at h
          cases h
          exact .iter (.call (.looked hctx) .ret)
      | none =>
          rw [hctx] at h
          have hround := eval_retryNext_of_isFinal policy zero attempt (.looked hctx) (.called h)
            fun err _ ↦ isFinal_of_eq hattempt err
          exact .iter (hround.bind .ret)
  | succ remaining ih =>
      rw [retryFrom, Call.bind_apply, Method.ctxErr_apply, Option.bind_some] at h
      cases hctx : env.ctx frame.polls with
      | some err =>
          rw [hctx] at h
          cases h
          exact .iter (.call (.looked hctx) .ret)
      | none =>
          rw [hctx] at h
          dsimp only [Option.map_none] at h
          rw [Call.bind_apply] at h
          obtain ⟨⟨outcome, frame₂⟩, hcall, h⟩ := Option.bind_eq_some_iff.mp h
          obtain ⟨value, err | err⟩ := outcome
          · cases h
            have hround := eval_retryNext_of_isFinal policy zero attempt (.looked hctx)
              (.called hcall) nofun
            exact .iter (hround.bind .ret)
          · dsimp only at h
            rw [← isFinal_of_ne (by omega : attempt ≠ policy.attempts)] at h
            split at h
            · next hfinal =>
                cases h
                have hround := eval_retryNext_of_isFinal policy zero attempt (.looked hctx)
                  (.called hcall) fun err' herr ↦ Option.some.inj herr ▸ hfinal
                exact .iter (hround.bind .ret)
            · next hfinal =>
                obtain ⟨next, hwait, hnext⟩ | hwait := eval_retryWait zero attempt h
                · have hround := eval_retryNext_of_not_isFinal zero (.looked hctx) (.called hcall)
                    hfinal hwait
                  exact .iter (hround.bind (ih (by omega) hnext))
                · have hround := eval_retryNext_of_not_isFinal zero (.looked hctx) (.called hcall)
                    hfinal hwait
                  exact .iter (hround.bind .ret)

/-- `retryCall` of the decorator is the loop of the source. -/
theorem eval_of_retryCall {config : Config}
    (h : Decorator.retryCall config zero call env frame = some (result, frame')) :
    Eval (Served call env) (retryCall config.retry zero) frame result frame' := by
  unfold Decorator.retryCall at h
  unfold retryCall
  cases hretry : config.retry with
  | none =>
      rw [hretry] at h
      exact .call (.called h) .ret
  | some policy =>
      rw [hretry] at h
      have hpos := policy.attempts_pos
      exact eval_of_retryFrom (by omega) h

/-- The second attempt succeeds. -/
theorem eval_of_retryCall_second :
    let order := (KeyOrder.increasing Str).toIterOrder
    let env : Env := ⟨fun _ ↦ none, 0, order, order⟩
    let policy : RetryPolicy := ⟨2, by decide, fun _ ↦ true, none⟩
    let call : Method Nat (Nat × Option Err) := fun _ frame ↦ some ((7,
      if frame.store = 0 then some (.sentinel .eof) else none), { frame with store := 1 })
    Eval (Served call env) (retryCall (some policy) 0) { store := 0 } (7, none)
      { store := 1, polls := 2 } := by
  intro order env policy call
  have hcall : Decorator.retryCall { retry := some policy } 0 call env { store := 0 } =
      some ((7, none), { store := 1, polls := 2 }) := rfl
  exact eval_of_retryCall hcall

end Method

/-! ## Traces -/

inductive Event (α : Type) where
  | looked (err : Option CtxErr)
  | called (outcome : α × Option Err)
  | waited (done : Bool)

def event : (c : Cmd) → c.Resp α → Event α
  | .ctxErr, err => .looked err
  | .call, outcome => .called outcome
  | .wait _, done => .waited done

/-- The error of the context, once there is one, and what happened so far. -/
structure World (α : Type) where
  ctx : Option CtxErr := none
  trace : List (Event α) := []

/-- The context may be cancelled at any moment and stays so.  A call returns
anything, and a wait may end with the context only once that is cancelled. -/
inductive Answered : Answers (sig α) (World α)
  | intro {w : World α} {c : Cmd} {r : c.Resp α} {ctx : Option CtxErr}
      (hctx : w.ctx = none ∨ ctx = w.ctx)
      (h : match c, r with
        | .ctxErr, err => err = ctx
        | .call, _ => True
        | .wait _, done => done = true → ctx.isSome) :
      Answered w c r ⟨ctx, w.trace ++ [event c r]⟩

def calls (trace : List (Event α)) : List (α × Option Err) :=
  trace.filterMap fun
    | .called outcome => some outcome
    | _ => none

/-- An outcome after which there may be another call. -/
def Retries (policy : RetryPolicy) (outcome : α × Option Err) : Prop :=
  ∃ err, outcome.2 = some err ∧ err.is .canceled = false ∧ err.is .deadlineExceeded = false ∧
    policy.retryable err = true

/-- Immediately before each call the context was live. -/
def LiveBeforeCalls (trace : List (Event α)) : Prop :=
  ∀ before outcome after, trace = before ++ .called outcome :: after →
    ∃ earlier, before = earlier ++ [.looked none]

/-- What a trace of `retryCall` has to be like. -/
structure Conforms (policy : RetryPolicy) (zero : α) (trace : List (Event α))
    (result : α × Option Err) : Prop where
  atMost : (calls trace).length ≤ policy.attempts
  retried : ∀ outcome ∈ (calls trace).dropLast, Retries policy outcome
  live : LiveBeforeCalls trace
  result : (∃ before, trace = before ++ [.called result]) ∨
    ∃ before err, trace = before ++ [.looked (some err)] ∧ result = (zero, some err.err)

section Traces

variable {trace : List (Event α)}

@[simp] theorem calls_append (trace trace' : List (Event α)) :
    calls (trace ++ trace') = calls trace ++ calls trace' := List.filterMap_append

@[simp] theorem calls_looked (err : Option CtxErr) : calls [(.looked err : Event α)] = [] := rfl

@[simp] theorem calls_called (outcome : α × Option Err) :
    calls [.called outcome] = [outcome] := rfl

@[simp] theorem calls_waited (done : Bool) : calls [(.waited done : Event α)] = [] := rfl

theorem liveBeforeCalls_nil : LiveBeforeCalls ([] : List (Event α)) := by
  intro before outcome after h
  cases before <;> cases h

/-- One more event, which is a call only if the context was just seen to be live. -/
theorem LiveBeforeCalls.snoc (h : LiveBeforeCalls trace) {e : Event α}
    (he : ∀ outcome, e = .called outcome → ∃ earlier, trace = earlier ++ [.looked none]) :
    LiveBeforeCalls (trace ++ [e]) := by
  intro before outcome after heq
  rcases List.eq_nil_or_concat after with rfl | ⟨after', last, rfl⟩
  · obtain ⟨rfl, hlast⟩ := List.append_inj' heq rfl
    exact he outcome (List.cons.inj hlast).1
  · rw [List.concat_eq_append, ← List.cons_append, ← List.append_assoc] at heq
    exact h before outcome after' (List.append_inj' heq rfl).1

end Traces

/-! ## Every run conforms -/

section Runs

variable {w : World α} {policy : RetryPolicy} {zero : α}

theorem ensures_ctxErr (w : World α) :
    Ensures Answered True (perform (α := α) .ctxErr) w fun err w' ↦
      w'.trace = w.trace ++ [.looked err] ∧ (w.ctx.isSome → err.isSome) := by
  refine Ensures.command (fun _ ↦ ⟨w.ctx, _, .intro (.inr rfl) rfl⟩) ?_
  rintro err w' ⟨hctx, rfl⟩
  refine ⟨rfl, fun hsome ↦ ?_⟩
  rcases hctx with hnone | rfl
  · rw [hnone] at hsome
    cases hsome
  · exact hsome

theorem ensures_call (zero : α) (w : World α) :
    Ensures Answered True (perform (α := α) .call) w fun outcome w' ↦
      w'.trace = w.trace ++ [.called outcome] := by
  refine Ensures.command (fun _ ↦ ⟨(zero, none), _, .intro (.inr rfl) trivial⟩) ?_
  rintro outcome w' ⟨_, _⟩
  rfl

theorem ensures_wait (delay : Int) (w : World α) :
    Ensures Answered True (perform (α := α) (.wait delay)) w fun done w' ↦
      w'.trace = w.trace ++ [.waited done] ∧ (done = true → w'.ctx.isSome) := by
  refine Ensures.command (fun _ ↦ ⟨false, _, .intro (.inr rfl) (nomatch ·)⟩) ?_
  rintro done w' ⟨_, h⟩
  exact ⟨rfl, h⟩

/-- What holds before an attempt: every call so far is to be retried. -/
structure Pending (policy : RetryPolicy) (attempt : Nat) (trace : List (Event α)) : Prop where
  le : attempt ≤ policy.attempts
  length_eq : (calls trace).length + 1 = attempt
  retried : ∀ outcome ∈ calls trace, Retries policy outcome
  live : LiveBeforeCalls trace

namespace Pending

variable {attempt : Nat} {trace trace' : List (Event α)} {outcome : α × Option Err}

/-- An event other than a call. -/
theorem snoc (h : Pending policy attempt trace) {e : Event α} (he : calls [e] = []) :
    Pending policy attempt (trace ++ [e]) := by
  have hcalls : calls (trace ++ [e]) = calls trace := by
    rw [calls_append, he, List.append_nil]
  refine ⟨h.le, hcalls ▸ h.length_eq, hcalls ▸ h.retried, h.live.snoc ?_⟩
  rintro outcome rfl
  cases he

/-- The loop stops because of the context. -/
theorem stop (h : Pending policy attempt trace) (zero : α) {err : CtxErr}
    (htrace : trace' = trace ++ [.looked (some err)]) :
    Conforms policy zero trace' (zero, some err.err) := by
  obtain ⟨hle, hlength, hretried, hlive⟩ := h.snoc (calls_looked (some err))
  rw [← htrace] at hlength hretried hlive
  refine ⟨by omega, ?_, hlive, .inr ⟨trace, err, htrace, rfl⟩⟩
  exact fun outcome hmem ↦ hretried outcome (List.mem_of_mem_dropLast hmem)

/-- The loop returns what a call returned. -/
theorem finish (h : Pending policy attempt (trace ++ [.looked none])) (zero : α)
    (htrace : trace' = trace ++ [.looked none] ++ [.called outcome]) :
    Conforms policy zero trace' outcome := by
  subst htrace
  refine ⟨?_, ?_, h.live.snoc fun _ _ ↦ ⟨trace, rfl⟩, .inl ⟨_, rfl⟩⟩
  · rw [calls_append, List.length_append, calls_called, List.length_singleton, h.length_eq]
    exact h.le
  · rw [calls_append, calls_called, List.dropLast_concat]
    exact h.retried

/-- Another attempt is due. -/
theorem retry (h : Pending policy attempt (trace ++ [.looked none]))
    (hattempt : attempt ≠ policy.attempts) (houtcome : Retries policy outcome) :
    Pending policy (attempt + 1) (trace ++ [.looked none] ++ [.called outcome]) := by
  refine ⟨lt_of_le_of_ne h.le hattempt, ?_, ?_, h.live.snoc fun _ _ ↦ ⟨trace, rfl⟩⟩
  · rw [calls_append, List.length_append, calls_called, List.length_singleton, h.length_eq]
  · rw [calls_append, calls_called]
    intro o hmem
    rcases List.mem_append.mp hmem with hmem | hmem
    · exact h.retried o hmem
    · exact List.mem_singleton.mp hmem ▸ houtcome

end Pending

theorem retries_of_not_isFinal {attempt : Nat} (result : α) {err : Err}
    (h : isFinal policy attempt err = false) :
    attempt ≠ policy.attempts ∧ Retries policy (result, some err) := by
  unfold isFinal at h
  simp only [Bool.or_eq_false_iff, decide_eq_false_iff_not, Bool.not_eq_false'] at h
  obtain ⟨⟨⟨hattempt, hcanceled⟩, hdeadline⟩, hretryable⟩ := h
  exact ⟨hattempt, err, rfl, hcanceled, hdeadline, hretryable⟩

/-- One round of the loop. -/
theorem ensures_retryNext {attempt : Nat} (h : Pending policy attempt w.trace) :
    Ensures Answered True (retryNext policy zero attempt) w
      (Sum.elim (fun attempt' w' ↦ attempt' = attempt + 1 ∧ Pending policy attempt' w'.trace)
        fun result w' ↦ Conforms policy zero w'.trace result) := by
  unfold retryNext
  refine (ensures_ctxErr w).bind fun looked w₁ hw₁ ↦ ?_
  cases looked with
  | some err => exact Ensures.ret (h.stop zero hw₁.1)
  | none =>
      have hlooked := h.snoc (calls_looked none)
      refine (ensures_call zero w₁).bind fun outcome w₂ htrace₂ ↦ ?_
      rw [hw₁.1] at htrace₂
      obtain ⟨result, err | err⟩ := outcome
      · exact Ensures.ret (hlooked.finish zero htrace₂)
      · dsimp only
        split
        · exact Ensures.ret (hlooked.finish zero htrace₂)
        · next hfinal =>
            obtain ⟨hattempt, hretries⟩ :=
              retries_of_not_isFinal result (Bool.not_eq_true _ ▸ hfinal)
            have hnext := hlooked.retry hattempt hretries
            rw [← htrace₂] at hnext
            unfold retryWait
            split
            · exact Ensures.ret ⟨rfl, hnext⟩
            · next backoff _ =>
                refine (ensures_wait (backoff attempt) w₂).bind fun done w₃ hw₃ ↦ ?_
                have hwaited := hnext.snoc (calls_waited done)
                rw [← hw₃.1] at hwaited
                cases done with
                | false => exact Ensures.ret ⟨rfl, hwaited⟩
                | true =>
                    refine (ensures_ctxErr w₃).bind fun looked w₄ hw₄ ↦ ?_
                    obtain ⟨err, rfl⟩ := Option.isSome_iff_exists.mp (hw₄.2 (hw₃.2 rfl))
                    exact Ensures.ret (hwaited.stop zero hw₄.1)

/-- The whole loop: the attempts that are left go down with every round. -/
theorem ensures_retryCall (policy : RetryPolicy) (zero : α) (ctx : Option CtxErr) :
    Ensures Answered True (retryCall (some policy) zero) ⟨ctx, []⟩
      fun result w' ↦ Conforms policy zero w'.trace result := by
  refine Ensures.loop (fun attempt w ↦ Pending policy attempt w.trace)
    (fun attempt _ ↦ policy.attempts + 1 - attempt) ?_ fun attempt w h ↦ ?_
  · exact ⟨policy.attempts_pos, rfl, fun _ ↦ nofun, liveBeforeCalls_nil⟩
  · refine (ensures_retryNext h).mono ?_
    rintro (attempt' | result) w' hw'
    · obtain ⟨rfl, hnext⟩ := hw'
      have hle := h.le
      exact ⟨hnext, fun _ ↦ by omega⟩
    · exact hw'

end Runs

/-- Every run of `retryCall` comes to an end and conforms to its policy. -/
theorem retryCall_conforms (options : RetryOptions) (policy : RetryPolicy)
    (hpolicy : withRetry options = .ok policy) (zero : α) (ctx : Option CtxErr) :
    (policy.attempts = options.attempts ∧ some policy.retryable = options.retryable ∧
      policy.backoff = options.backoff) ∧
    Halts Answered (retryCall (some policy) zero) ⟨ctx, []⟩ ∧
      (∀ result w', Eval Answered (retryCall (some policy) zero) ⟨ctx, []⟩ result w' →
        Conforms policy zero w'.trace result) ∧
    -- with a nil policy there is one call
    Halts Answered (retryCall none zero) ⟨ctx, []⟩ ∧
      ∀ result w', Eval Answered (retryCall none zero) ⟨ctx, []⟩ result w' →
        w'.trace = [.called result] := by
  have hsome := ensures_retryCall policy zero ctx
  have hnone := ensures_call zero ⟨ctx, []⟩
  exact ⟨of_withRetry hpolicy, hsome.halts, fun _ _ heval ↦ heval.ensures hsome, hnone.halts,
    fun _ _ heval ↦ heval.ensures hnone⟩

/-- Three attempts, and an error that is retried. -/
theorem retryCall_conforms_three :
    let options : RetryOptions := ⟨3, some fun _ ↦ true, none⟩
    let policy : RetryPolicy := ⟨3, by decide, fun _ ↦ true, none⟩
    withRetry options = .ok policy ∧
      ∀ result w', Eval Answered (retryCall (some policy) 0) ⟨none, []⟩ result w' →
        (calls w'.trace).length ≤ 3 := by
  intro options policy
  have hpolicy : withRetry options = .ok policy := rfl
  obtain ⟨_, _, hconforms, _⟩ := retryCall_conforms options policy hpolicy 0 none
  exact ⟨hpolicy, fun result w' heval ↦ (hconforms result w' heval).atMost⟩

end Retry

end GoFilesystem.Decorator
